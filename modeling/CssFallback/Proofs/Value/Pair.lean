import CssFallback.Proofs.Token.Pieces
import CssFallback.Value

/-!
# Values of two words

A plain word is one part of a value, and two of them with a space between them are three.
The pair of words that a value is can be read off its text, without its parts.
-/

set_option autoImplicit false

namespace CssFallback

namespace Text
open ValuePart

def pair? (t : Text) : Option (Text × Text) :=
  match t.splitOn ' ' with
  | [a, b] => if isPlainWord a && isPlainWord b then some (a, b) else none
  | _ => none

end Text

namespace ValuePart

def pairText (a b : Text) : Text := a ++ ' ' :: b

def pairParts (a b : Text) : List ValuePart := [⟨.word, a⟩, ⟨.space, [' ']⟩, ⟨.word, b⟩]

theorem text_of_pair (a b : Text) : textOf (pairParts a b) = pairText a b := by
  simp [textOf, pairParts, pairText]

theorem letters_of_plain {w : Text} (h : isPlainWord w = true) : IsLetters w := by
  simp only [isPlainWord, Bool.and_eq_true, decide_eq_true_eq] at h
  refine ⟨?_, h.2⟩
  rintro rfl
  simp at h

theorem splits_plain_word {w rest : Text} (h : isPlainWord w = true)
    (hr : rest.StartsOff extendsName) : Splits w [⟨.ident, w⟩] rest := by
  obtain ⟨c, r, rfl, hc, hr'⟩ := (letters_of_plain h).cons
  exact Splits.name hc hr' hr

theorem space_off_plain_word {w : Text} (rest : Text) (h : isPlainWord w = true) :
    (w ++ rest).StartsOff isSpace := by
  obtain ⟨c, r, rfl, hc, -⟩ := (letters_of_plain h).cons
  exact Text.starts_off_cons _ (space_of_alpha hc)

theorem splits_pair {a b rest : Text} (ha : isPlainWord a = true) (hb : isPlainWord b = true)
    (hr : rest.StartsOff extendsName) :
    Splits (pairText a b) [⟨.ident, a⟩, ⟨.space, [' ']⟩, ⟨.ident, b⟩] rest := by
  have hspace : Splits [' '] [⟨.space, [' ']⟩] (b ++ rest) :=
    Splits.space (by simp) rfl (space_off_plain_word rest hb)
  have hword : Splits a [⟨.ident, a⟩] ([' '] ++ b ++ rest) :=
    splits_plain_word ha (Text.starts_off_cons _ rfl)
  exact hword.append (hspace.append (splits_plain_word hb hr))

theorem value_parts_word {w : Text} (h : isPlainWord w = true) : valueParts w = [⟨.word, w⟩] := by
  have hl : Splits w _ [] := splits_plain_word h (Text.starts_off_nil _)
  rw [Splits, List.append_nil] at hl
  rw [valueParts, hl]
  rfl

theorem value_parts_pair {a b : Text} (ha : isPlainWord a = true) (hb : isPlainWord b = true) :
    valueParts (pairText a b) = pairParts a b := by
  have hl : Splits (pairText a b) _ [] := splits_pair ha hb (Text.starts_off_nil _)
  rw [Splits, List.append_nil] at hl
  rw [valueParts, hl]
  rfl

theorem word_pair_parts {ps : List ValuePart} {w : Text × Text} (h : wordPair? ps = some w) :
    ps = pairParts w.1 w.2 ∧ isPlainWord w.1 = true ∧ isPlainWord w.2 = true := by
  rw [wordPair?.eq_def] at h
  split at h
  · split at h
    · rename_i hp
      obtain rfl := Option.some.inj h
      exact ⟨rfl, by simpa using hp⟩
    · cases h
  · cases h

theorem has_word_pair (word a b : Text) :
    hasWord word (pairParts a b) = true ↔ a = word ∨ b = word := by
  simp only [hasWord, pairParts, List.contains_cons, List.contains_nil, Bool.or_eq_true,
    beq_iff_eq, ValuePart.mk.injEq, true_and, reduceCtorEq, false_and, false_or,
    Bool.false_eq_true, or_false]
  rw [eq_comm, @eq_comm _ word b]

theorem replace_word_pair (old new a b : Text) :
    replaceWord old new (pairParts a b) =
      pairParts (if a = old then new else a) (if b = old then new else b) := by
  by_cases ha : a = old <;> by_cases hb : b = old <;> simp [replaceWord, pairParts, ha, hb]

theorem space_off_word {w : Text} (h : isPlainWord w = true) : ' ' ∉ w := by
  simp only [isPlainWord, Bool.and_eq_true, List.all_eq_true] at h
  intro hs
  cases h.2 _ hs

theorem split_pair {a b : Text} (ha : isPlainWord a = true) (hb : isPlainWord b = true) :
    (pairText a b).splitOn ' ' = [a, b] := by
  have hwords : ∀ w ∈ [a, b], ' ' ∉ w := by simp [space_off_word ha, space_off_word hb]
  have hjoin : pairText a b = [' '].intercalate [a, b] := by simp [pairText, List.intercalate]
  rw [hjoin, List.splitOn_intercalate _ hwords (by simp)]

theorem pair_injective {a b c d : Text} (ha : isPlainWord a = true) (hb : isPlainWord b = true)
    (hc : isPlainWord c = true) (hd : isPlainWord d = true) :
    pairText a b = pairText c d ↔ a = c ∧ b = d := by
  constructor
  · intro h
    have hsplit := split_pair ha hb
    rw [h, split_pair hc hd] at hsplit
    simpa [eq_comm] using hsplit
  · rintro ⟨rfl, rfl⟩
    rfl

theorem pair_iff {t a b : Text} :
    t.pair? = some (a, b) ↔ isPlainWord a = true ∧ isPlainWord b = true ∧ t = pairText a b := by
  constructor
  · intro h
    rw [Text.pair?] at h
    split at h
    · rename_i c d hsplit
      split at h
      · rename_i hplain
        obtain ⟨rfl, rfl⟩ := Prod.mk.inj (Option.some.inj h)
        simp only [Bool.and_eq_true] at hplain
        refine ⟨hplain.1, hplain.2, ?_⟩
        have hjoin : [' '].intercalate (t.splitOn ' ') = t := List.intercalate_splitOn ' '
        rw [hsplit] at hjoin
        simpa [pairText, List.intercalate] using hjoin.symm
      · cases h
    · cases h
  · rintro ⟨ha, hb, rfl⟩
    simp [Text.pair?, split_pair ha hb, ha, hb]

theorem word_pair_text (value : Text) : wordPair? (valueParts value) = value.pair? := by
  ext ⟨a, b⟩
  rw [pair_iff]
  constructor
  · intro h
    obtain ⟨hparts, ha, hb⟩ := word_pair_parts h
    refine ⟨ha, hb, ?_⟩
    rw [← text_of_pair, ← hparts, text_of_value_parts]
  · rintro ⟨ha, hb, rfl⟩
    simp [value_parts_pair ha hb, pairParts, wordPair?, ha, hb]

/-- Two to twenty letters, each from `a` to `z` or from `A` to `Z`. -/
def IsShortWord (w : Text) : Prop :=
  (2 ≤ w.length ∧ w.length ≤ 20) ∧ ∀ c ∈ w, 'a' ≤ c ∧ c ≤ 'z' ∨ 'A' ≤ c ∧ c ≤ 'Z'

theorem alpha_iff {c : Char} : c.isAlpha = true ↔ 'a' ≤ c ∧ c ≤ 'z' ∨ 'A' ≤ c ∧ c ≤ 'Z' := by
  have hranges : c.isAlpha =
      (decide ('A' ≤ c ∧ c ≤ 'Z') || (decide ('a' ≤ c) && decide (c ≤ 'z'))) := rfl
  rw [hranges, Bool.or_eq_true, Bool.and_eq_true, decide_eq_true_eq, decide_eq_true_eq,
    decide_eq_true_eq]
  exact or_comm

theorem plain_word_iff {w : Text} : isPlainWord w = true ↔ IsShortWord w := by
  simp only [isPlainWord, IsShortWord, Bool.and_eq_true, decide_eq_true_eq, List.all_eq_true,
    alpha_iff]

/-- A value has two words exactly if it is one short word, a space and another one. -/
theorem pair_of_words (value a b : Text) :
    wordPair? (valueParts value) = some (a, b) ↔
      IsShortWord a ∧ IsShortWord b ∧ value = a ++ ' ' :: b := by
  rw [word_pair_text, pair_iff, plain_word_iff, plain_word_iff]
  rfl

end ValuePart
end CssFallback
