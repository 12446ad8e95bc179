import CssFallback.Proofs.Fallback.Words
import CssFallback.Proofs.Stylesheet.Landing

/-!
# What a sweep leaves and counts

After a sweep each declaration of a list stands behind the fallbacks that its own text
gives, unless the declaration in front of it in the list as it was sets the same property.
The tally counts the declarations of the overflow properties and what has been added, for
a list and for all rules of a sheet together.
-/

set_option autoImplicit false

namespace CssFallback

/-!
## What a value is rewritten to

The fallbacks of a declaration can be read off the text of its value, without its tokens:
the value is a modern keyword, or two plain words with a single space between them, or it
has no fallback.
-/

namespace Fallback
open ValuePart

def swap (on : Bool) (old new word : Text) : Text :=
  if on then if word = old then new else word else word

def swapClip (o : Options) (word : Text) : Text :=
  swap o.clip "clip".toList "hidden".toList word

def swapOverlay (o : Options) (word : Text) : Text :=
  swap o.overlay "overlay".toList "auto".toList word

/-- The fallbacks of a pair. The one without `clip` stands last, and the one in which
`overlay` is replaced too stands in front of it. -/
def rewritePair (o : Options) (a b : Text) : List Text :=
  let older := pairText (swapClip o a) (swapClip o b)
  let oldest := pairText (swapOverlay o (swapClip o a)) (swapOverlay o (swapClip o b))
  (if oldest = older then [] else [oldest]) ++ if older = pairText a b then [] else [older]

/-- The values of the fallbacks of a declaration, read off the text of its value. -/
def rewrites (o : Options) (property value : Text) : List Text :=
  if value = "clip".toList then if o.clip then ["hidden".toList] else []
  else if value = "overlay".toList then if o.overlay then ["auto".toList] else []
  else if o.pairs = true ∧ property = "overflow".toList then
    match value.pair? with
    | some (a, b) => rewritePair o a b
    | none => []
  else []

theorem reword_clip (o : Options) (word : Text) : reword o word .clip = swapClip o word := by
  cases h : o.clip with
  | true =>
    simp only [reword, replacement?, Options.enables, swapClip, swap, h, Keyword.older?, if_true]
    rfl
  | false =>
    simp only [reword, replacement?, Options.enables, swapClip, swap, h, Bool.false_eq_true, if_false]

theorem reword_overlay (o : Options) (word : Text) : reword o word .overlay = swapOverlay o word := by
  cases h : o.overlay with
  | true =>
    simp only [reword, replacement?, Options.enables, swapOverlay, swap, h, Keyword.older?, if_true]
    rfl
  | false =>
    simp only [reword, replacement?, Options.enables, swapOverlay, swap, h, Bool.false_eq_true,
      if_false]

theorem stage_changes (o : Options) (k : Keyword) {a b : Text} (ha : isPlainWord a = true)
    (hb : isPlainWord b = true) :
    ((replacement? o k).isSome ∧ (a = k.text ∨ b = k.text)) ↔
      pairText (reword o a k) (reword o b k) ≠ pairText a b := by
  rw [ne_eq, pair_injective (reword_plain o k ha) (reword_plain o k hb) ha hb]
  cases hk : replacement? o k with
  | none => simp [reword, hk]
  | some new =>
    have hchanged : ∀ word, reword o word k = word ↔ word ≠ k.text := fun word =>
      ⟨fun h => h ▸ reword_new hk word, reword_other o⟩
    rw [hchanged, hchanged]
    simp only [Option.isSome_some, true_and]
    exact or_iff_not_and_not

theorem stages_rewrite (o : Options) {a b : Text} (ha : isPlainWord a = true)
    (hb : isPlainWord b = true) : stageValues o stages (pairParts a b) = rewritePair o a b := by
  have ha' := reword_plain o .clip ha
  have hb' := reword_plain o .clip hb
  rw [stages, stage_pair, stage_pair]
  simp only [stage_changes o _ ha hb, stage_changes o _ ha' hb']
  simp only [reword_clip, reword_overlay, stageValues, List.nil_append, rewritePair, ne_eq, ite_not]

theorem handled_pair_iff (o : Options) (property value : Text) :
    isHandledPair o property (valueParts value) = true ↔
      (o.pairs = true ∧ property = "overflow".toList) ∧ value.pair?.isSome = true := by
  rw [isHandledPair, word_pair_text, Bool.and_eq_true, Bool.and_eq_true, beq_iff_eq,
    Property.of_name_iff]
  rfl

theorem modern_none {value : Text} (h : modernKeyword? value = none) :
    value ≠ "clip".toList ∧ value ≠ "overlay".toList := by
  constructor
  · rintro rfl
    cases h
  · rintro rfl
    cases h

theorem values_rewrites (o : Options) (d : Declaration) :
    values o d = rewrites o d.property d.value := by
  rw [values_eq]
  cases hm : modernKeyword? d.value with
  | some k =>
    obtain ⟨hvalue, rfl | rfl⟩ := modern_cases hm
    · rw [rewrites, if_pos (show d.value = "clip".toList from hvalue)]
      cases hc : o.clip <;> simp only [replacement?, Options.enables, hc] <;> rfl
    · have hclip : d.value ≠ "clip".toList := by
        rw [hvalue]
        decide
      rw [rewrites, if_neg hclip, if_pos (show d.value = "overlay".toList from hvalue)]
      cases hc : o.overlay <;> simp only [replacement?, Options.enables, hc] <;> rfl
  | none =>
    obtain ⟨hclip, hoverlay⟩ := modern_none hm
    rw [rewrites, if_neg hclip, if_neg hoverlay]
    by_cases hpair : isHandledPair o d.property (valueParts d.value) = true
    · obtain ⟨hon, hsome⟩ := (handled_pair_iff o _ _).mp hpair
      obtain ⟨w, hw⟩ := Option.isSome_iff_exists.mp hsome
      obtain ⟨ha, hb, hvalue⟩ := pair_iff.mp hw
      simp only [hpair, if_true, if_pos hon, hw]
      rw [hvalue, value_parts_pair ha hb, stages_rewrite o ha hb]
    · simp only [hpair, Bool.false_eq_true, if_false]
      by_cases hon : o.pairs = true ∧ d.property = "overflow".toList
      · have hnone : d.value.pair? = none := by
          simpa [handled_pair_iff, hon] using hpair
        rw [if_pos hon, hnone]
      · rw [if_neg hon]

example : rewrites .all "overflow".toList "clip overlay".toList =
    ["hidden auto".toList, "hidden overlay".toList] := by decide

theorem plain_of_rewrites (o : Options) (property value : Text) :
    rewrites o property value = [] ∨ IsPlainValue value := by
  rcases values_cases (.fresh property value false) with ⟨k, hk⟩ | ⟨a, b, ha, hb, hvalue⟩ | hnone
  · right
    left
    obtain ⟨rfl, rfl | rfl⟩ := modern_cases hk <;> decide
  · exact .inr (.inr ⟨a, b, ha, hb, hvalue⟩)
  · left
    rw [← hnone o, values_rewrites]
    rfl

theorem guarded_iff (previous : Option Declaration) (d : Declaration) :
    isGuarded previous d = true ↔ previous.map Declaration.property = some d.property := by
  cases previous <;> simp [isGuarded]

theorem not_wanted_iff (o : Options) : o.addsNothing = true ↔ o.overlay = false ∧ o.clip = false := by
  simp [Options.addsNothing]

/-- What is done with the declaration at an index, told by the text of its value. It gets
no fallback where neither family is wanted or the declaration in front of it sets the same
property; no other value than a plain word or two has any. -/
theorem provide_by_text (o : Options) :
    (∀ (list : Declarations) (index : Nat), provide o list index =
      match list[index]? with
      | none => (list, 0)
      | some d =>
        if (o.overlay = false ∧ o.clip = false) ∨
            (list.previous? index).map Declaration.property = some d.property then (list, 0)
        else
          (list.take index ++ (rewrites o d.property d.value).map (fun v =>
              ⟨d.property, v, false, d.indent, Separator.plain d.separator, none⟩) ++ list.drop index,
            (rewrites o d.property d.value).length)) ∧
    ∀ property value, rewrites o property value = [] ∨ IsPlainValue value := by
  refine ⟨fun list index => ?_, plain_of_rewrites o⟩
  cases hd : list[index]? with
  | none => simp [provide, hd]
  | some d =>
    obtain ⟨hlt, hget⟩ := List.getElem?_eq_some_iff.mp hd
    have hdrop : list.drop index = d :: list.drop (index + 1) := by
      rw [List.drop_eq_getElem_cons hlt, hget]
    have hlist : list.take index ++ d :: list.drop (index + 1) = list := by
      rw [← hdrop, List.take_append_drop]
    have hlength : (list.take index).length = index := List.length_take_of_le (Nat.le_of_lt hlt)
    have hlocal := provide_local o (list.take index) (list.drop (index + 1)) d
    have hprevious := Declarations.previous_append (list.take index) (d :: list.drop (index + 1))
    rw [hlist, hlength] at hlocal hprevious
    rw [hlocal, hprevious, ← hdrop, values_rewrites]
    by_cases hn : o.overlay = false ∧ o.clip = false
    · have hnone : rewrites o d.property d.value = [] := by
        rw [← values_rewrites, values, if_pos ((not_wanted_iff o).mpr hn)]
      simp [hn, hnone]
    · simp only [guarded_iff, hn, false_or]
      rfl

end Fallback

/-! ## The fallbacks of a list -/

def overflowNames : List Text :=
  ["overflow", "overflow-x", "overflow-y", "overflow-block", "overflow-inline"].map String.toList

theorem overflow_names_iff {name : Text} :
    name ∈ overflowNames ↔ (Property.ofName? name).isSome = true := by
  rw [Option.isSome_iff_exists]
  simp only [Property.of_name_iff]
  constructor
  · intro h
    simp only [overflowNames, List.map_cons, List.map_nil, List.mem_cons, List.not_mem_nil,
      or_false] at h
    rcases h with h | h | h | h | h
    exacts [⟨.shorthand, h⟩, ⟨.x, h⟩, ⟨.y, h⟩, ⟨.block, h⟩, ⟨.inline, h⟩]
  · rintro ⟨p, rfl⟩
    cases p <;> decide

namespace Fallback

/-- What is due in front of the declaration `d` at an index of a list. -/
def due (o : Options) (list : Declarations) (index : Nat) (d : Declaration) : Declarations :=
  if d.property ∈ overflowNames ∧
      (list.previous? index).map Declaration.property ≠ some d.property then
    (rewrites o d.property d.value).map d.fallback
  else []

theorem additions_due (o : Options) (list : Declarations) (index : Nat) (d : Declaration) :
    additions o (list.previous? index) d = due o list index d := by
  rw [additions, due, values_rewrites]
  simp only [Bool.and_eq_true, Bool.not_eq_true', ← Bool.not_eq_true, guarded_iff,
    overflow_names_iff, ne_eq]

theorem provided_behind (o : Options) (front back : Declarations) :
    provided o front.getLast? back = (back.mapIdx fun i d =>
      due o (front ++ back) (front.length + i) d ++ [d]).flatten := by
  induction back generalizing front with
  | nil => rfl
  | cons d back ih =>
    have hnext := ih (front ++ [d])
    rw [List.getLast?_concat, List.append_assoc, List.singleton_append, List.length_append] at hnext
    rw [provided, List.mapIdx_cons, List.flatten_cons, hnext, Nat.add_zero, ← additions_due,
      Declarations.previous_append, List.append_assoc, List.singleton_append]
    simp only [List.length_singleton, Nat.add_assoc, Nat.add_comm 1]

theorem added_due (o : Options) (front back : Declarations) :
    added o front.getLast? back =
      (back.mapIdx fun i d => (due o (front ++ back) (front.length + i) d).length).sum := by
  induction back generalizing front with
  | nil => rfl
  | cons d back ih =>
    have hnext := ih (front ++ [d])
    rw [List.getLast?_concat, List.append_assoc, List.singleton_append, List.length_append] at hnext
    rw [added, List.mapIdx_cons, List.sum_cons, hnext, Nat.add_zero, ← additions_due,
      Declarations.previous_append]
    simp only [List.length_singleton, Nat.add_assoc, Nat.add_comm 1]

theorem considered_names (list : Declarations) :
    considered list = list.countP fun d => decide (d.property ∈ overflowNames) := by
  simp [considered, overflow_names_iff]

end Fallback

namespace Stylesheet
open Fallback

theorem considered_rules (rules : List Rule) : considered (declarationsOf rules) =
    (rules.map fun r => considered r.declarations).sum := List.countP_flatMap

theorem total_provided (o : Options) (rules : List Rule) :
    (declarationsOf (rules.map (Rule.provided o))).length =
      (declarationsOf rules).length +
        (rules.map fun r => Fallback.added o none r.declarations).sum := by
  induction rules with
  | nil => rfl
  | cons r rules ih =>
    rw [List.map_cons, declarations_cons, declarations_cons, List.length_append, List.length_append,
      ih, List.map_cons, List.sum_cons, Rule.provided, length_provided]
    omega

end Stylesheet

open Fallback in
/-- A sweep puts what is due in front of each declaration and changes nothing else. The
tally of a list counts its overflow declarations and what is due in front of them, and that
of a sheet adds up the tallies of its rules. -/
theorem sweep_concatenates (o : Options) :
    (∀ list : Declarations,
      (sweep o list).1 = (list.mapIdx fun i d => due o list i d ++ [d]).flatten ∧
      (sweep o list).2.considered = list.countP (fun d => decide (d.property ∈ overflowNames)) ∧
      (sweep o list).2.added = (list.mapIdx fun i d => (due o list i d).length).sum ∧
      (sweep o list).1.length = list.length + (sweep o list).2.added) ∧
    ∀ s : Stylesheet,
      (s.sweep o).1 =
        ⟨s.source, s.rules.map fun r => ⟨r.selector, (sweep o r.declarations).1, r.stop⟩⟩ ∧
      (s.sweep o).2 = ⟨s.rules.length,
        (s.rules.map fun r => (sweep o r.declarations).2.considered).sum,
        (s.rules.map fun r => (sweep o r.declarations).2.added).sum⟩ ∧
      (s.sweep o).1.totalDeclarations = s.totalDeclarations + (s.sweep o).2.added := by
  refine ⟨fun list => ?_, fun s => ?_⟩
  · have hprovided := provided_behind o [] list
    have hadded := added_due o [] list
    simp only [List.getLast?_nil, List.nil_append, List.length_nil, Nat.zero_add] at hprovided hadded
    rw [sweep_local]
    exact ⟨hprovided, considered_names list, hadded, length_provided o none list⟩
  · have htally : (s.sweep o).2 = ⟨s.rules.length, considered (declarationsOf s.rules),
        (s.rules.map fun r => added o none r.declarations).sum⟩ := by
      rw [Stylesheet.sweep, Stylesheet.sweep_rules]
    simp only [sweep_local]
    refine ⟨Stylesheet.sweep_sheet o s, ?_, ?_⟩
    · rw [htally, Stylesheet.considered_rules]
    · rw [htally, Stylesheet.sweep_sheet]
      exact Stylesheet.total_provided o s.rules

end CssFallback
