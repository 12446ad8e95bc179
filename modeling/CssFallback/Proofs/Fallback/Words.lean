import CssFallback.Proofs.Fallback.Local
import CssFallback.Proofs.Value.Pair

/-!
# The words of a fallback

Every fallback has for its value a plain word or two plain words with a space between
them. Such a value is split into the words again, and after the stages none of its words
has a stage left.
-/

set_option autoImplicit false

namespace CssFallback

namespace Fallback
open ValuePart

/-- A word after the stage of a keyword. -/
def reword (o : Options) (word : Text) (k : Keyword) : Text :=
  match replacement? o k with
  | some new => if word = k.text then new else word
  | none => word

def staged (o : Options) (ks : List Keyword) (word : Text) : Text := ks.foldl (reword o) word

def IsPlainValue (value : Text) : Prop :=
  isPlainWord value = true ∨
    ∃ a b, isPlainWord a = true ∧ isPlainWord b = true ∧ value = pairText a b

theorem replacement_some {o : Options} {k : Keyword} {word : Text}
    (h : replacement? o k = some word) :
    o.enables k = true ∧ (k = .clip ∧ word = Keyword.text .hidden ∨
      k = .overlay ∧ word = Keyword.text .auto) := by
  rw [replacement?] at h
  by_cases hk : o.enables k = true
  · rw [if_pos hk] at h
    cases k with
    | clip => exact ⟨hk, .inl ⟨rfl, (Option.some.inj h).symm⟩⟩
    | overlay => exact ⟨hk, .inr ⟨rfl, (Option.some.inj h).symm⟩⟩
    | hidden => cases h
    | auto => cases h
  · rw [if_neg hk] at h
    cases h

theorem replacement_plain {o : Options} {k : Keyword} {word : Text}
    (h : replacement? o k = some word) : isPlainWord word = true := by
  obtain ⟨-, ⟨-, rfl⟩ | ⟨-, rfl⟩⟩ := replacement_some h <;> decide

theorem reword_plain (o : Options) {word : Text} (k : Keyword) (h : isPlainWord word = true) :
    isPlainWord (reword o word k) = true := by
  rw [reword]
  split
  · rename_i new hnew
    split
    · exact replacement_plain hnew
    · exact h
  · exact h

theorem stage_pair (o : Options) (k : Keyword) (later : List Keyword) (a b : Text) :
    stageValues o (k :: later) (pairParts a b) =
      stageValues o later (pairParts (reword o a k) (reword o b k)) ++
        (if (replacement? o k).isSome ∧ (a = k.text ∨ b = k.text) then
          [pairText (reword o a k) (reword o b k)] else []) := by
  rw [stageValues]
  cases hk : replacement? o k with
  | none => simp [reword, hk]
  | some new =>
    by_cases hw : a = k.text ∨ b = k.text
    · simp [has_word_pair, hw, replace_word_pair, text_of_pair, reword, hk]
    · have ha : a ≠ k.text := fun h => hw (.inl h)
      have hb : b ≠ k.text := fun h => hw (.inr h)
      simp [has_word_pair, reword, hk, ha, hb]

/-- If the stages give any fallback, the one in front has been through all of them, and
if they give none, they leave both words as they are. -/
theorem stages_front (o : Options) (ks : List Keyword) (a b : Text) :
    (stageValues o ks (pairParts a b) = [] ∧ staged o ks a = a ∧ staged o ks b = b) ∨
      ∃ more, stageValues o ks (pairParts a b) =
        pairText (staged o ks a) (staged o ks b) :: more := by
  induction ks generalizing a b with
  | nil => exact .inl ⟨rfl, rfl, rfl⟩
  | cons k later ih =>
    rw [stage_pair]
    rcases ih (reword o a k) (reword o b k) with ⟨hnil, ha, hb⟩ | ⟨more, hmore⟩
    · rw [hnil, List.nil_append]
      simp only [staged, List.foldl_cons] at ha hb ⊢
      rw [ha, hb]
      by_cases hk : (replacement? o k).isSome ∧ (a = k.text ∨ b = k.text)
      · exact .inr ⟨[], if_pos hk⟩
      · refine .inl ⟨if_neg hk, ?_, ?_⟩ <;> rw [reword] <;> split <;> simp_all
    · exact .inr ⟨_, by rw [hmore, List.cons_append]; rfl⟩

theorem stages_plain (o : Options) (ks : List Keyword) {a b : Text}
    (ha : isPlainWord a = true) (hb : isPlainWord b = true) :
    ∀ v ∈ stageValues o ks (pairParts a b), IsPlainValue v := by
  induction ks generalizing a b with
  | nil => simp [stageValues]
  | cons k later ih =>
    intro v hv
    have ha' := reword_plain o k ha
    have hb' := reword_plain o k hb
    rw [stage_pair, List.mem_append] at hv
    rcases hv with hv | hv
    · exact ih ha' hb' v hv
    · split at hv
      · exact .inr ⟨_, _, ha', hb', List.mem_singleton.mp hv⟩
      · cases hv

theorem reword_new {o : Options} {k : Keyword} {new : Text} (h : replacement? o k = some new)
    (word : Text) : reword o word k ≠ k.text := by
  have hne : new ≠ k.text := by
    obtain ⟨-, ⟨rfl, rfl⟩ | ⟨rfl, rfl⟩⟩ := replacement_some h <;> decide
  by_cases hw : word = k.text <;> simp [reword, h, hw, hne]

theorem reword_ne (o : Options) (k : Keyword) {j : Keyword} {new word : Text}
    (hj : replacement? o j = some new) (h : word ≠ j.text) : reword o word k ≠ j.text := by
  rw [reword]
  split
  · rename_i new' hk
    split
    · obtain ⟨-, ⟨rfl, -⟩ | ⟨rfl, -⟩⟩ := replacement_some hj <;>
        obtain ⟨-, ⟨-, rfl⟩ | ⟨-, rfl⟩⟩ := replacement_some hk <;> decide
    · exact h
  · exact h

theorem staged_settled {o : Options} {k : Keyword} {new : Text} (h : replacement? o k = some new)
    (word : Text) : staged o stages word ≠ k.text := by
  have hstaged : staged o stages word = reword o (reword o word .clip) .overlay := rfl
  rw [hstaged]
  obtain ⟨-, ⟨rfl, -⟩ | ⟨rfl, -⟩⟩ := replacement_some h
  · exact reword_ne o _ h (reword_new h word)
  · exact reword_new h _

theorem stages_settled (o : Options) (ks : List Keyword) {a b : Text}
    (h : ∀ k new, replacement? o k = some new → a ≠ k.text ∧ b ≠ k.text) :
    stageValues o ks (pairParts a b) = [] := by
  induction ks with
  | nil => rfl
  | cons k later ih =>
    rw [stage_pair]
    cases hk : replacement? o k with
    | none => simpa [reword, hk] using ih
    | some new =>
      obtain ⟨ha, hb⟩ := h k new hk
      simpa [reword, hk, ha, hb] using ih

theorem staged_plain (o : Options) (ks : List Keyword) {word : Text}
    (h : isPlainWord word = true) : isPlainWord (staged o ks word) = true := by
  induction ks generalizing word with
  | nil => exact h
  | cons k later ih => exact ih (reword_plain o k h)

theorem modern_pair (a b : Text) : modernKeyword? (pairText a b) = none := by
  have hk : Keyword.ofText? (pairText a b) = none := by
    rw [Option.eq_none_iff_forall_ne_some]
    intro k hk
    have hs : ' ' ∈ k.text := by
      rw [← Keyword.of_text_iff.mp hk]
      simp [pairText]
    cases k <;> revert hs <;> decide
  simp [modernKeyword?, hk]

theorem replacement_of_adds_nothing {o : Options} (h : o.addsNothing = true) (k : Keyword) :
    replacement? o k = none := by
  rw [replacement?, (o.adds_nothing_iff.mp h) k]
  rfl

theorem stages_of_adds_nothing {o : Options} (h : o.addsNothing = true) (ks : List Keyword)
    (parts : List ValuePart) : stageValues o ks parts = [] := by
  induction ks with
  | nil => rfl
  | cons k later ih => rw [stageValues, replacement_of_adds_nothing h]; exact ih

theorem values_eq (o : Options) (d : Declaration) :
    values o d =
      match modernKeyword? d.value with
      | some k => (replacement? o k).toList
      | none =>
        if isHandledPair o d.property (valueParts d.value) then
          stageValues o stages (valueParts d.value)
        else [] := by
  by_cases hn : o.addsNothing = true
  · cases modernKeyword? d.value <;>
      simp [values, hn, replacement_of_adds_nothing hn, stages_of_adds_nothing hn]
  · cases hk : modernKeyword? d.value <;> simp [values, hn, hk]

theorem handled_pair {o : Options} {property : Text} {parts : List ValuePart}
    (h : isHandledPair o property parts = true) : ∃ a b, isPlainWord a = true ∧
      isPlainWord b = true ∧ parts = pairParts a b := by
  simp only [isHandledPair, Bool.and_eq_true] at h
  obtain ⟨w, hw⟩ := Option.isSome_iff_exists.mp h.2
  obtain ⟨hparts, ha, hb⟩ := word_pair_parts hw
  exact ⟨w.1, w.2, ha, hb, hparts⟩

theorem values_plain (o : Options) (d : Declaration) : ∀ v ∈ values o d, IsPlainValue v := by
  intro v hv
  rw [values_eq] at hv
  split at hv
  · rw [Option.mem_toList] at hv
    exact .inl (replacement_plain hv)
  · split at hv
    · rename_i hp
      obtain ⟨a, b, ha, hb, hparts⟩ := handled_pair hp
      rw [hparts] at hv
      exact stages_plain o stages ha hb v hv
    · cases hv

theorem reword_other (o : Options) {k : Keyword} {word : Text} (h : word ≠ k.text) :
    reword o word k = word := by
  rw [reword]
  split
  · exact if_neg h
  · rfl

theorem modern_cases {value : Text} {k : Keyword} (h : modernKeyword? value = some k) :
    value = k.text ∧ (k = .clip ∨ k = .overlay) := by
  obtain ⟨hk, hold⟩ := Option.filter_eq_some_iff.mp h
  refine ⟨Keyword.of_text_iff.mp hk, ?_⟩
  cases k with
  | clip => exact .inl rfl
  | overlay => exact .inr rfl
  | hidden => cases hold
  | auto => cases hold

theorem values_cases (d : Declaration) : (∃ k, modernKeyword? d.value = some k) ∨
    (∃ a b, isPlainWord a = true ∧ isPlainWord b = true ∧ d.value = pairText a b) ∨
      ∀ o, values o d = [] := by
  cases hm : modernKeyword? d.value with
  | some k => exact .inl ⟨k, rfl⟩
  | none =>
    cases hw : wordPair? (valueParts d.value) with
    | none =>
      refine .inr (.inr fun o => ?_)
      simp [values_eq, hm, isHandledPair, hw]
    | some w =>
      obtain ⟨hparts, ha, hb⟩ := word_pair_parts hw
      have hvalue : d.value = pairText w.1 w.2 := by
        rw [← text_of_pair, ← hparts, text_of_value_parts]
      exact .inr (.inl ⟨w.1, w.2, ha, hb, hvalue⟩)

theorem values_word (o : Options) (d : Declaration) {word : Text} (hw : isPlainWord word = true)
    (hm : modernKeyword? word = none) : values o (d.fallback word) = [] := by
  simp [values_eq, Declaration.fallback, hm, value_parts_word hw, isHandledPair, wordPair?]

theorem values_pair (o : Options) {d : Declaration} {a b : Text} (ha : isPlainWord a = true)
    (hb : isPlainWord b = true) (hv : d.value = pairText a b) :
    values o d = if o.pairs = true ∧ Property.ofName? d.property = some .shorthand then
      stageValues o stages (pairParts a b) else [] := by
  have hpair : wordPair? (pairParts a b) = some (a, b) := by simp [pairParts, wordPair?, ha, hb]
  simp [values_eq, hv, modern_pair, value_parts_pair ha hb, isHandledPair, hpair]

end Fallback
end CssFallback
