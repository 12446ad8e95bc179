import CssFallback.Declaration
import CssFallback.Proofs.Token.Pieces
import Mathlib.Data.List.TakeWhile

/-!
# Reading importance

Trimming takes the blanks around a text that has none at its ends. A value without an
exclamation mark is read as it is, and one that `!important` follows, with any blanks
around the mark, is read without it.
-/

set_option autoImplicit false

namespace CssFallback

namespace Text

def Solid (t : Text) : Prop :=
  (∃ c u, t = c :: u ∧ isBlank c = false) ∧ ∃ u c, t = u ++ [c] ∧ isBlank c = false

theorem trim_end_solid {t after : Text} (ht : t.Solid) (ha : after.all isBlank = true) :
    trimEnd (t ++ after) = t := by
  obtain ⟨u, c, rfl, hc⟩ := ht.2
  rw [List.all_eq_true] at ha
  rw [trimEnd, List.reverse_append, List.dropWhile_append_of_pos fun c hc => ha c (List.mem_reverse.mp hc)]
  simp [hc]

theorem trim_solid (before after : Text) {t : Text} (hb : before.all isBlank = true) (ht : t.Solid)
    (ha : after.all isBlank = true) : (before ++ t ++ after).trim = t := by
  have hstart : (before ++ t ++ after).trimStart = t ++ after := by
    obtain ⟨c, u, rfl, hc⟩ := ht.1
    rw [List.all_eq_true] at hb
    rw [trimStart, List.append_assoc, List.dropWhile_append_of_pos hb]
    simp [hc]
  rw [trim, hstart, trim_end_solid ht ha]

theorem trim_of_solid {t : Text} (ht : t.Solid) : t.trim = t := by
  simpa using trim_solid [] [] rfl ht rfl

theorem Solid.join {s t : Text} (hs : s.Solid) (ht : t.Solid) (mid : Text) :
    (s ++ (mid ++ t)).Solid := by
  constructor
  · obtain ⟨c, u, rfl, hc⟩ := hs.1
    exact ⟨c, u ++ (mid ++ t), rfl, hc⟩
  · obtain ⟨u, c, rfl, hc⟩ := ht.2
    exact ⟨s ++ (mid ++ u), c, by simp, hc⟩

end Text

namespace Text

theorem trim_shape (t : Text) : ∃ before after : Text, before.all isBlank = true ∧
    after.all isBlank = true ∧ t = before ++ (t.trim ++ after) := by
  refine ⟨t.leadingBlanks, t.trimStart.trailingBlanks, List.all_takeWhile, ?_, ?_⟩
  · rw [trailingBlanks, List.all_reverse]
    exact List.all_takeWhile
  · rw [trim, trim_end_append, leading_blanks_append]

theorem trim_end_shape (t : Text) : ∃ after : Text, after.all isBlank = true ∧
    t = t.trimEnd ++ after := by
  refine ⟨t.trailingBlanks, ?_, (trim_end_append t).symm⟩
  rw [trailingBlanks, List.all_reverse]
  exact List.all_takeWhile

end Text

namespace Importance

theorem no_mark {t : Text} (h : '!' ∉ t) : splitLastMark t = none := by
  have hdrop : t.reverse.dropWhile (· ≠ '!') = [] := by
    rw [List.dropWhile_eq_nil_iff]
    intro c hc
    have : c ≠ '!' := by
      rintro rfl
      exact h (List.mem_reverse.mp hc)
    simpa using this
  rw [splitLastMark, hdrop]

theorem last_mark (s : Text) {t : Text} (h : '!' ∉ t) : splitLastMark (s ++ '!' :: t) = some (s, t) := by
  have hpass : ∀ c ∈ t.reverse, (decide (c ≠ '!')) = true := by
    intro c hc
    have : c ≠ '!' := by
      rintro rfl
      exact h (List.mem_reverse.mp hc)
    simpa using this
  have hrev : (s ++ '!' :: t).reverse = t.reverse ++ ('!' :: s.reverse) := by simp
  rw [splitLastMark, hrev, List.dropWhile_append_of_pos hpass, List.takeWhile_append_of_pos hpass]
  simp

theorem split_plain {value : Text} (hs : value.Solid) (hm : '!' ∉ value) :
    split value = (value, false) := by
  simp [split, Text.trim_of_solid hs, no_mark hm]

/-- The word behind the last mark makes a value important. -/
theorem split_important {value before after word : Text} (hs : value.Solid)
    (hb : before.all isBlank = true) (ha : after.all isBlank = true) (hw : word.Solid)
    (hm : '!' ∉ after ++ word) (hi : word.sameIgnoringCase "important".toList = true) :
    split (value ++ before ++ '!' :: (after ++ word)) = (value, true) := by
  have htrim : (value ++ before ++ '!' :: (after ++ word)).trim =
      value ++ before ++ '!' :: (after ++ word) := by
    have hjoin := hs.join hw (before ++ '!' :: after)
    exact Text.trim_of_solid (by simpa using hjoin)
  have hword : (after ++ word).trim = word := by
    simpa using Text.trim_solid after [] ha hw rfl
  simp only [split, htrim, last_mark _ hm, hword, hi, if_true, Text.trim_end_solid hs hb]

theorem mark_shape {t head word : Text} (h : splitLastMark t = some (head, word)) :
    t = head ++ '!' :: word := by
  rw [splitLastMark] at h
  split at h
  · cases h
  · rename_i c front hdrop
    obtain ⟨rfl, rfl⟩ := Prod.mk.inj (Option.some.inj h)
    have hc : c = '!' := by
      have := List.head?_dropWhile_not (fun x : Char => decide (x ≠ '!')) t.reverse
      rw [hdrop] at this
      simpa using this
    calc t = (t.reverse.takeWhile (· ≠ '!') ++ t.reverse.dropWhile (· ≠ '!')).reverse := by
          rw [List.takeWhile_append_dropWhile, List.reverse_reverse]
      _ = front.reverse ++ '!' :: (t.reverse.takeWhile (· ≠ '!')).reverse := by
          rw [hdrop, hc, List.reverse_append, List.reverse_cons, List.append_assoc]
          rfl

theorem letters_of_same {word : Text} (h : word.sameIgnoringCase "important".toList = true) :
    word ≠ [] ∧ ∀ c ∈ word, c.isAlpha = true := by
  have hmap : word.map Char.toLower = "important".toList := by
    simpa [Text.sameIgnoringCase] using h
  have hne : word ≠ [] := by
    rintro rfl
    cases hmap
  refine ⟨hne, fun c hc => alpha_of_lower ?_⟩
  have hlower : c.toLower ∈ "important".toList := by
    rw [← hmap]
    exact List.mem_map_of_mem hc
  have hall : "important".toList.all Char.isAlpha = true := by decide
  exact List.all_eq_true.mp hall _ hlower

/-- What may stand behind a value: blanks, and the word of importance. -/
def Follows (u : Text) : Prop :=
  u.all isBlank = true ∨ ∃ before after word last : Text, before.all isBlank = true ∧
    after.all isBlank = true ∧ last.all isBlank = true ∧
    word.sameIgnoringCase "important".toList = true ∧ u = before ++ '!' :: (after ++ (word ++ last))

theorem Follows.not_mem {u : Text} (h : Follows u) {c : Char} (hb : isBlank c = false)
    (ha : c.isAlpha = false) (hm : c ≠ '!') : c ∉ u := by
  have hblank : ∀ t : Text, t.all isBlank = true → c ∉ t := by
    intro t ht hc
    rw [List.all_eq_true.mp ht c hc] at hb
    cases hb
  rcases h with h | ⟨before, after, word, last, hbefore, hafter, hlast, hword, rfl⟩
  · exact hblank u h
  · have hletter : c ∉ word := fun hc => by simp [(letters_of_same hword).2 c hc] at ha
    simp [hblank, hbefore, hafter, hlast, hletter, hm]

theorem split_shape {raw value : Text} {important : Bool} (h : split raw = (value, important))
    (hm : '!' ∉ value) : ∃ before behind : Text, before.all isBlank = true ∧ Follows behind ∧
      raw = before ++ (value ++ behind) := by
  obtain ⟨before, last, hb, hl, hraw⟩ := Text.trim_shape raw
  rw [split] at h
  split at h
  · obtain ⟨rfl, -⟩ := Prod.mk.inj h
    exact ⟨before, last, hb, .inl hl, hraw⟩
  · rename_i head word hmark
    have htrim := mark_shape hmark
    split at h
    · rename_i hword
      obtain ⟨rfl, -⟩ := Prod.mk.inj h
      obtain ⟨inner, hi, hhead⟩ := Text.trim_end_shape head
      obtain ⟨front, back, hf, hback, hw⟩ := Text.trim_shape word
      refine ⟨before, inner ++ '!' :: (front ++ (word.trim ++ (back ++ last))), hb,
        .inr ⟨inner, front, word.trim, back ++ last, hi, hf, by simp [hback, hl], hword, rfl⟩, ?_⟩
      calc raw = before ++ (raw.trim ++ last) := hraw
        _ = before ++ ((head.trimEnd ++ inner ++ '!' :: (front ++ (word.trim ++ back))) ++ last) := by
          rw [← hhead, ← hw, ← htrim]
        _ = _ := by simp
    · obtain ⟨rfl, -⟩ := Prod.mk.inj h
      exact absurd (by rw [htrim]; simp) hm

end Importance
end CssFallback
