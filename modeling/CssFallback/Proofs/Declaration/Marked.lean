import CssFallback.Proofs.Declaration.Importance
import CssFallback.Proofs.Declaration.Separator
import Mathlib.Data.List.Basic

/-!
# What a text is split into

A text is split into a value and its importance by the characters of the text alone. The
parts of it may be known otherwise: the value, the mark and the word of importance, and
what stands between and behind them. It is split into these if nothing stands there but
blanks, and the value has none at its ends.
-/

set_option autoImplicit false

namespace CssFallback

namespace Text

/-- The text ends like a value that is important. -/
def LooksMarked (t : Text) : Prop :=
  ∃ head between word : Text, t = head ++ '!' :: (between ++ word) ∧ between.all isBlank = true ∧
    word.sameIgnoringCase "important".toList = true

/-- A comment stands in the text, with nothing but blanks in front. -/
def StartsComment (t : Text) : Prop :=
  ∃ blanks more : Text, t = blanks ++ '/' :: more ∧ blanks.all isBlank = true

theorem StartsComment.not_blank {t : Text} (h : t.StartsComment) : t.all isBlank = false := by
  obtain ⟨blanks, more, rfl, -⟩ := h
  simp [show isBlank '/' = false by decide]

theorem trim_end_last {t : Text} {c : Char} (h : t.trimEnd.getLast? = some c) :
    isBlank c = false := by
  rw [trimEnd, List.getLast?_reverse] at h
  have := List.head?_dropWhile_not isBlank t.reverse
  rw [h] at this
  simpa using this

theorem blanks_unique {s s' u u' : Text} {c c' : Char} (hs : s.all isBlank = true)
    (hs' : s'.all isBlank = true) (hc : isBlank c = false) (hc' : isBlank c' = false)
    (h : s ++ c :: u = s' ++ c' :: u') : s = s' ∧ c = c' ∧ u = u' := by
  have htake : ∀ {s u : Text} {c : Char}, s.all isBlank = true → isBlank c = false →
      (s ++ c :: u).takeWhile isBlank = s := by
    intro s u c hs hc
    rw [List.takeWhile_append_of_pos (List.all_eq_true.mp hs)]
    simp [hc]
  have hsame : s = s' := by rw [← htake hs hc (u := u), h, htake hs' hc']
  subst hsame
  obtain ⟨rfl, rfl⟩ := List.cons.inj (List.append_cancel_left h)
  exact ⟨rfl, rfl, rfl⟩

theorem gap_unique {s s' u u' : Text} {c c' : Char} (hs : s.all isBlank = true ∨ s.StartsComment)
    (hs' : s'.all isBlank = true) (hc : isBlank c = false) (hc' : isBlank c' = false)
    (hne : c' ≠ '/') (h : s ++ c :: u = s' ++ c' :: u') : s = s' ∧ c = c' ∧ u = u' := by
  rcases hs with hs | ⟨blanks, more, rfl, hblanks⟩
  · exact blanks_unique hs hs' hc hc' h
  · rw [List.append_assoc] at h
    exact absurd (blanks_unique hblanks hs' (by decide) hc' h).2.1.symm hne

theorem Solid.nil_of_blank {s back : Text} (h : (s ++ back).Solid) (hb : back.all isBlank = true) :
    back = [] := by
  rcases List.eq_nil_or_concat' back with hnil | ⟨v, d, rfl⟩
  · exact hnil
  · obtain ⟨u, c, hu, hc⟩ := h.2
    rw [← List.append_assoc] at hu
    obtain ⟨-, rfl⟩ := List.append_singleton_inj.mp hu
    simp [hc] at hb

theorem trim_solid_or_nil (t : Text) : t.trim = [] ∨ t.trim.Solid := by
  cases ht : t.trim with
  | nil => exact .inl rfl
  | cons c u =>
    refine .inr ⟨⟨c, u, rfl, ?_⟩, ?_⟩
    · have hstart : t.trimStart = c :: (u ++ t.trimStart.trailingBlanks) := by
        rw [← List.cons_append, ← ht, trim, trim_end_append]
      have := List.head?_dropWhile_not isBlank t
      rw [show t.dropWhile isBlank = t.trimStart from rfl, hstart] at this
      simpa using this
    · obtain ⟨v, d, hv⟩ := List.eq_nil_or_concat' (c :: u) |>.resolve_left (by simp)
      refine ⟨v, d, hv, trim_end_last (t := t.trimStart) ?_⟩
      rw [show t.trimStart.trimEnd = t.trim from rfl, ht, hv]
      simp

theorem trim_self_iff {t : Text} : t.trim = t ↔ t = [] ∨ t.Solid := by
  constructor
  · intro h
    have := t.trim_solid_or_nil
    rwa [h] at this
  · rintro (rfl | h)
    · rfl
    · exact trim_of_solid h

theorem trim_spaced (before after : Text) {t : Text} (hb : before.all isBlank = true)
    (ht : t.trim = t) (ha : after.all isBlank = true) : (before ++ (t ++ after)).trim = t := by
  rcases trim_self_iff.mp ht with rfl | ht
  · have hall : (before ++ after).all isBlank = true := by simp [hb, ha]
    have hstart : (before ++ after).dropWhile isBlank = [] :=
      List.dropWhile_eq_nil_iff.mpr (List.all_eq_true.mp hall)
    simp [trim, trimStart, hstart, trimEnd]
  · rw [← List.append_assoc]
    exact trim_solid before after hb ht ha

end Text

namespace Importance
open Text

theorem word_solid {word : Text} (h : word.sameIgnoringCase "important".toList = true) :
    word.Solid := by
  obtain ⟨hne, hletters⟩ := letters_of_same h
  constructor
  · obtain ⟨c, u, rfl⟩ := List.exists_cons_of_ne_nil hne
    exact ⟨c, u, rfl, blank_of_alpha (hletters c (by simp))⟩
  · obtain ⟨u, c, rfl⟩ := (List.eq_nil_or_concat' word).resolve_left hne
    exact ⟨u, c, rfl, blank_of_alpha (hletters c (by simp))⟩

theorem word_first {word : Text} (h : word.sameIgnoringCase "important".toList = true) :
    ∃ c u, word = c :: u ∧ isBlank c = false ∧ c ≠ '/' := by
  obtain ⟨hne, hletters⟩ := letters_of_same h
  obtain ⟨c, u, rfl⟩ := List.exists_cons_of_ne_nil hne
  have hc := hletters c (by simp)
  exact ⟨c, u, rfl, blank_of_alpha hc, by rintro rfl; cases hc⟩

theorem word_length {word : Text} (h : word.sameIgnoringCase "important".toList = true) :
    word.length = 9 := by
  have hmap : word.map Char.toLower = "important".toList := by simpa [sameIgnoringCase] using h
  rw [← List.length_map (f := Char.toLower), hmap]
  rfl

theorem mark_not_mem {between word : Text} (hb : between.all isBlank = true)
    (hw : word.sameIgnoringCase "important".toList = true) : '!' ∉ between ++ word := by
  intro h
  rcases List.mem_append.mp h with h | h
  · simpa [show isBlank '!' = false by decide] using List.all_eq_true.mp hb _ h
  · simpa using (letters_of_same hw).2 _ h

theorem split_marked {head between word : Text} (hb : between.all isBlank = true)
    (hw : word.sameIgnoringCase "important".toList = true) {raw : Text}
    (hr : raw.trim = head ++ '!' :: (between ++ word)) : split raw = (head.trimEnd, true) := by
  have hword : (between ++ word).trim = word := by
    simpa using trim_spaced between [] hb (trim_of_solid (word_solid hw)) rfl
  simp only [split, hr, last_mark _ (mark_not_mem hb hw), hword, hw, if_true]

/-- What a text looks like that is found to be important. -/
theorem marked_shape {raw value : Text} (h : split raw = (value, true)) :
    value.trim = value ∧ ∃ before inner front word back : Text,
      raw = before ++ (value ++ (inner ++ '!' :: (front ++ (word ++ back)))) ∧
        before.all isBlank = true ∧ inner.all isBlank = true ∧ front.all isBlank = true ∧
          back.all isBlank = true ∧ word.sameIgnoringCase "important".toList = true := by
  obtain ⟨before, last, hb, hl, hraw⟩ := trim_shape raw
  have hsolid := raw.trim_solid_or_nil
  rw [split] at h
  split at h
  · cases h
  rename_i head word hmark
  split at h
  · rename_i hword
    obtain ⟨rfl, -⟩ := Prod.mk.inj h
    have htrim := mark_shape hmark
    obtain ⟨inner, hi, hhead⟩ := trim_end_shape head
    obtain ⟨front, back, hf, hback, hw⟩ := trim_shape word
    have hparts : raw.trim = head.trimEnd ++ (inner ++ '!' :: (front ++ (word.trim ++ back))) := by
      calc raw.trim = (head.trimEnd ++ inner) ++ '!' :: (front ++ (word.trim ++ back)) := by
            rw [← hhead, ← hw, htrim]
        _ = _ := by simp
    refine ⟨trim_self_iff.mpr ?_, before, inner, front, word.trim, back ++ last, ?_, hb, hi, hf,
      by simp [hback, hl], hword⟩
    · -- the value starts as the trimmed text does
      cases hv : head.trimEnd with
      | nil => exact .inl rfl
      | cons c u =>
        right
        rw [hparts, hv] at hsolid
        obtain ⟨⟨d, w, hd, hblank⟩, -⟩ := hsolid.resolve_left (by simp)
        obtain ⟨rfl, -⟩ := List.cons.inj hd
        obtain ⟨w, d, hlast⟩ := (List.eq_nil_or_concat' (c :: u)).resolve_left (by simp)
        refine ⟨⟨c, u, rfl, hblank⟩, w, d, hlast, trim_end_last (t := head) ?_⟩
        rw [hv, hlast]
        simp
    · calc raw = before ++ (raw.trim ++ last) := hraw
        _ = _ := by simp [hparts]
  · cases h

theorem split_plain_iff {value post : Text} : split (value ++ post) = (value, false) ↔
    value.trim = value ∧ post.all isBlank = true ∧ ¬ value.LooksMarked := by
  constructor
  · intro h
    have htrim : (value ++ post).trim = value := by
      rw [split] at h
      split at h
      · exact (Prod.mk.inj h).1
      · split at h
        · cases h
        · exact (Prod.mk.inj h).1
    have hvalue := (value ++ post).trim_solid_or_nil
    rw [htrim] at hvalue
    obtain ⟨before, after, hb, ha, hraw⟩ := (value ++ post).trim_shape
    rw [htrim] at hraw
    refine ⟨trim_self_iff.mpr hvalue, ?_, ?_⟩
    · rcases hvalue with rfl | ⟨⟨c, u, rfl, hc⟩, -⟩
      · simp only [List.nil_append] at hraw
        rw [hraw, List.all_append, hb, ha]
        rfl
      · obtain ⟨rfl, -, hrest⟩ := blanks_unique (s := []) rfl hb hc hc hraw
        rw [List.append_cancel_left hrest, ha]
    · rintro ⟨head, between, word, hlook, hbetween, hword⟩
      rw [split_marked hbetween hword (htrim.trans hlook)] at h
      cases h
  · rintro ⟨hvalue, hpost, hlook⟩
    have htrim : (value ++ post).trim = value := by
      simpa using trim_spaced [] post rfl hvalue hpost
    rw [split, htrim]
    split
    · rfl
    rename_i head word hmark
    split
    · rename_i hword
      obtain ⟨front, back, hf, hback, hw⟩ := word.trim_shape
      have hshape := mark_shape hmark
      generalize word.trim = core at hw hword
      rw [hw] at hshape
      refine absurd ⟨head, front, core, ?_, hf, hword⟩ hlook
      have hsolid := (trim_self_iff.mp hvalue).resolve_left (by simp [hshape])
      have hnil : back = [] := by
        refine Solid.nil_of_blank (s := head ++ '!' :: (front ++ core)) ?_ hback
        rw [hshape] at hsolid
        simpa using hsolid
      rw [hshape, hnil, List.append_nil]
    · rfl

section
variable {value gap between word post : Text} (hw : word.sameIgnoringCase "important".toList = true)
include hw

theorem split_spaced (hvalue : value.trim = value) (hg : gap.all isBlank = true)
    (hb : between.all isBlank = true) (hp : post.all isBlank = true) :
    split (value ++ (gap ++ '!' :: (between ++ (word ++ post)))) = (value, true) := by
  have hmark : Text.Solid ('!' :: (between ++ word)) :=
    Solid.join ⟨⟨'!', [], rfl, by decide⟩, [], '!', rfl, by decide⟩ (word_solid hw) between
  rcases trim_self_iff.mp hvalue with rfl | hsolid
  · have hraw : Text.trim ([] ++ (gap ++ '!' :: (between ++ (word ++ post)))) =
        [] ++ '!' :: (between ++ word) := by
      simpa using trim_spaced gap post hg (trim_of_solid hmark) hp
    exact split_marked hb hw hraw
  · have hraw : (value ++ (gap ++ '!' :: (between ++ (word ++ post)))).trim =
        (value ++ gap) ++ '!' :: (between ++ word) := by
      simpa using trim_spaced [] post rfl (trim_of_solid (hsolid.join hmark gap)) hp
    rw [split_marked hb hw hraw, trim_end_solid hsolid hg]

/-- If the value is split off, then nothing but blanks stands around the mark. -/
theorem spaced_of_split (hg : gap.all isBlank = true ∨ gap.StartsComment)
    (hb : between.all isBlank = true ∨ between.StartsComment)
    (h : split (value ++ (gap ++ '!' :: (between ++ (word ++ post)))) = (value, true)) :
    value.trim = value ∧ gap.all isBlank = true ∧ between.all isBlank = true ∧
      post.all isBlank = true := by
  obtain ⟨hvalue, before, inner, front, word', back, hraw, hbefore, hinner, hfront, hback, hword'⟩ :=
    marked_shape h
  obtain ⟨blanks, hblanks, hmark⟩ : ∃ blanks : Text, blanks.all isBlank = true ∧
      gap ++ '!' :: (between ++ (word ++ post)) = blanks ++ '!' :: (front ++ (word' ++ back)) := by
    rcases trim_self_iff.mp hvalue with rfl | ⟨⟨c, u, rfl, hc⟩, -⟩
    · exact ⟨before ++ inner, by simp [hbefore, hinner], by simpa using hraw⟩
    · obtain ⟨rfl, -, hrest⟩ := blanks_unique (s := []) rfl hbefore hc hc hraw
      exact ⟨inner, hinner, List.append_cancel_left hrest⟩
  obtain ⟨rfl, -, hrest⟩ := gap_unique hg hblanks (by decide) (by decide) (by decide) hmark
  obtain ⟨c, u, rfl, hc, -⟩ := word_first hw
  obtain ⟨d, v, rfl, hd, hne⟩ := word_first hword'
  obtain ⟨rfl, rfl, hletters⟩ := gap_unique hb hfront hc hd hne hrest
  have hlength : u.length = v.length :=
    Nat.succ.inj ((word_length hw).trans (word_length hword').symm)
  obtain ⟨-, rfl⟩ := List.append_inj hletters hlength
  exact ⟨hvalue, hblanks, hfront, hback⟩

theorem split_marked_iff (hg : gap.all isBlank = true ∨ gap.StartsComment)
    (hb : between.all isBlank = true ∨ between.StartsComment) :
    split (value ++ (gap ++ '!' :: (between ++ (word ++ post)))) = (value, true) ↔
      value.trim = value ∧ gap.all isBlank = true ∧ between.all isBlank = true ∧
        post.all isBlank = true :=
  ⟨spaced_of_split hw hg hb, fun ⟨hvalue, hgap, hbetween, hpost⟩ =>
    split_spaced hw hvalue hgap hbetween hpost⟩

end

end Importance
end CssFallback
