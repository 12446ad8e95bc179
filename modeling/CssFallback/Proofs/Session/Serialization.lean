import CssFallback.Proofs.Stylesheet.Exact
import CssFallback.Proofs.Stylesheet.Landing
import CssFallback.Session.Basic

/-!
# Serialization along a session

Whatever is done with the declarations of a sheet, the positions in it are those of the
source: a step adds declarations without a place, or copies one that is there. So the
sheet is written exactly after any steps.
-/

set_option autoImplicit false

namespace CssFallback

namespace Declarations

theorem mem_sourced {list : Declarations} {d : Declaration} :
    d ∈ sourced list ↔ d ∈ list ∧ d.place.isSome = true := by
  simp [sourced]

theorem sourced_insert (front back : Declarations) {added : Declarations}
    (h : ∀ d ∈ added, d.place = none) :
    sourced (front ++ added ++ back) = sourced (front ++ back) := by
  simp [sourced_append, sourced_of_unplaced h]

theorem exists_at {list : Declarations} {index : Nat} {d : Declaration} (h : list[index]? = some d) :
    ∃ front back, list = front ++ d :: back ∧ front.length = index := by
  obtain ⟨hlen, rfl⟩ := List.getElem?_eq_some_iff.mp h
  refine ⟨list.take index, list.drop (index + 1), ?_, List.length_take_of_le (Nat.le_of_lt hlen)⟩
  rw [← List.drop_eq_getElem_cons hlen, List.take_append_drop]

end Declarations

namespace ListStep

/-- The step adds no declaration that claims to stand in the source. -/
def AddsUnplaced : ListStep → Prop
  | .push d => d.place = none
  | _ => True

theorem sourced_provide (o : Options) (list : Declarations) (index : Nat) :
    Declarations.sourced (Fallback.provide o list index).1 = Declarations.sourced list := by
  cases h : list[index]? with
  | none =>
    rw [Fallback.provide, h]
    split <;> rfl
  | some d =>
    obtain ⟨front, back, rfl, rfl⟩ := Declarations.exists_at h
    rw [Fallback.provide_local]
    split
    · rfl
    · refine Declarations.sourced_insert front (d :: back) fun f hf => ?_
      obtain ⟨v, -, rfl⟩ := List.mem_map.mp hf
      rfl

theorem sourced_add_fallback {list list' : Declarations} {index : Nat} {value : Text}
    (h : list.addFallback? index value = some list') :
    Declarations.sourced list' = Declarations.sourced list := by
  obtain ⟨d, hd, -⟩ := Option.map_eq_some_iff.mp h
  obtain ⟨front, back, rfl, rfl⟩ := Declarations.exists_at hd
  obtain rfl := Option.some.inj ((Declarations.add_fallback_append front back d value).symm.trans h)
  rw [← List.singleton_append, ← List.append_assoc]
  exact Declarations.sourced_insert front (d :: back) (by simp [Declaration.fallback])

theorem sourced_add_to_each (list : Declarations) (value : Text) :
    Declarations.sourced (list.addFallbackToEach value) = Declarations.sourced list := by
  induction list with
  | nil => rfl
  | cons d list ih =>
    rw [Declarations.addFallbackToEach] at ih ⊢
    rw [List.flatMap_cons, Declarations.sourced_append, ih]
    exact (Declarations.sourced_append [d] list).symm ▸ rfl

theorem sourced_apply (o : Options) (list : Declarations) {step : ListStep} (h : step.AddsUnplaced) :
    Declarations.sourced (step.apply o list).1 = Declarations.sourced list := by
  cases step with
  | sweep => simp [apply, Fallback.sweep_local, Fallback.sourced_provided]
  | provide index => exact sourced_provide o list index
  | act property index =>
    simp only [apply, Fallback.action?]
    cases Property.ofName? property with
    | none => rfl
    | some p => exact sourced_provide o list index
  | add index value =>
    simp only [apply]
    cases h : list.addFallback? index value with
    | none => rfl
    | some list' => exact sourced_add_fallback h
  | addToEach value => exact sourced_add_to_each list value
  | push d =>
    have hd : d.place = none := h
    simp [apply, Declarations.sourced_append, Declarations.sourced_of_unplaced, hd]
  | demand index =>
    simp only [apply]
    split <;> rfl
  | _ => rfl

end ListStep

def Within (rules rules' : List Rule) : Prop :=
  ∀ r ∈ rules, (∃ r' ∈ rules', r.stop = r'.stop) ∧
    Declarations.sourced r.declarations ⊆ declarationsOf rules'

namespace Within
variable {rules rules' : List Rule}

theorem of_sourced {f : Rule → Rule} (h : ∀ r, (f r).stop = r.stop ∧
    Declarations.sourced (f r).declarations = Declarations.sourced r.declarations) (rules : List Rule) :
    Within (rules.map f) rules := by
  intro r hr
  obtain ⟨x, hx, rfl⟩ := List.mem_map.mp hr
  refine ⟨⟨x, hx, (h x).1⟩, fun d hd => ?_⟩
  rw [(h x).2] at hd
  exact List.mem_flatMap.mpr ⟨x, hx, (Declarations.mem_sourced.mp hd).1⟩

theorem refl (rules : List Rule) : Within rules rules := by
  have := of_sourced (f := id) (fun r => ⟨rfl, rfl⟩) rules
  rwa [List.map_id] at this

theorem set {r : Rule} {k : Nat} (hr : rules[k]? = some r) {list : Declarations}
    (h : Declarations.sourced list ⊆ declarationsOf rules) :
    Within (rules.set k (SheetSession.setDeclarations r list)) rules := by
  intro x hx
  rcases List.mem_or_eq_of_mem_set hx with hx | rfl
  · exact refl rules x hx
  · exact ⟨⟨r, List.mem_of_getElem? hr, rfl⟩, h⟩

theorem in_bounds {source : Text} (h : Within rules rules') (hs : Stylesheet.InBounds ⟨source, rules'⟩) :
    Stylesheet.InBounds ⟨source, rules⟩ := by
  constructor
  · intro r hr
    obtain ⟨r', hr', hstop⟩ := (h r hr).1
    exact hstop ▸ hs.stops r' hr'
  · intro r hr d hd p hp
    obtain ⟨r', hr', hd'⟩ := List.mem_flatMap.mp
      ((h r hr).2 (Declarations.mem_sourced.mpr ⟨hd, by simp [hp]⟩))
    exact hs.places r' hr' d hd' p hp

end Within

namespace SheetStep

/-- The step stays with the sheet and adds no declaration that claims to stand in its
source. -/
def KeepsSource : SheetStep → Prop
  | .reparse => False
  | .inRule _ step => step.AddsUnplaced
  | .inEveryRule step => step.AddsUnplaced
  | _ => True

end SheetStep

namespace SheetSession

def after (s : SheetSession) (steps : List SheetStep) : SheetSession :=
  steps.foldl (fun s step => (s.apply step).1) s

theorem within_copy (s : SheetSession) (rule index target : Nat) :
    (s.copy rule index target).1.sheet.source = s.sheet.source ∧
      Within (s.copy rule index target).1.sheet.rules s.sheet.rules := by
  rw [copy]
  split
  · exact ⟨rfl, .refl _⟩
  rename_i r hr
  split
  · exact ⟨rfl, .refl _⟩
  rename_i d hd
  split
  · exact ⟨rfl, .refl _⟩
  rename_i t ht
  refine ⟨rfl, Within.set ht fun x hx => ?_⟩
  rcases List.mem_append.mp (Declarations.mem_sourced.mp hx).1 with hx | hx
  · exact List.mem_flatMap.mpr ⟨t, List.mem_of_getElem? ht, hx⟩
  · rw [List.mem_singleton.mp hx]
    exact List.mem_flatMap.mpr ⟨r, List.mem_of_getElem? hr, List.mem_of_getElem? hd⟩

/-- A step keeps the source, and no position is new. -/
theorem within_apply (s : SheetSession) {step : SheetStep} (h : step.KeepsSource) :
    (s.apply step).1.sheet.source = s.sheet.source ∧
      Within (s.apply step).1.sheet.rules s.sheet.rules := by
  cases step with
  | sweep =>
    rw [apply, Stylesheet.sweep_sheet]
    have hrule : ∀ r : Rule, (r.provided s.options).stop = r.stop ∧ Declarations.sourced
        (r.provided s.options).declarations = Declarations.sourced r.declarations :=
      fun r => ⟨rfl, Fallback.sourced_provided _ _ _⟩
    exact ⟨rfl, .of_sourced hrule _⟩
  | configure settings =>
    simp only [apply]
    split <;> exact ⟨rfl, .refl _⟩
  | reparse => exact h.elim
  | copy rule index target => exact s.within_copy rule index target
  | inRule rule step =>
    simp only [apply, inRule]
    cases hr : s.sheet.rules[rule]? with
    | none => exact ⟨rfl, .refl _⟩
    | some r =>
      refine ⟨rfl, Within.set hr fun d hd => ?_⟩
      rw [ListStep.sourced_apply _ _ h] at hd
      exact List.mem_flatMap.mpr ⟨r, List.mem_of_getElem? hr, (Declarations.mem_sourced.mp hd).1⟩
  | inEveryRule step =>
    have hrule : ∀ r : Rule, (setDeclarations r (step.apply s.options r.declarations).1).stop = r.stop ∧
        Declarations.sourced (setDeclarations r (step.apply s.options r.declarations).1).declarations =
          Declarations.sourced r.declarations :=
      fun r => ⟨rfl, ListStep.sourced_apply _ _ h⟩
    simp only [apply, inEveryRule, withRules, List.map_map]
    exact ⟨trivial, .of_sourced hrule _⟩
  | _ => exact ⟨rfl, .refl _⟩

theorem in_bounds_step {s : SheetSession} (hs : s.sheet.InBounds) {step : SheetStep}
    (h : step.KeepsSource) : (s.apply step).1.sheet.InBounds := by
  obtain ⟨hsource, hrules⟩ := s.within_apply h
  obtain ⟨⟨source, rules⟩, hsheet⟩ : ∃ t : Stylesheet, (s.apply step).1.sheet = t := ⟨_, rfl⟩
  rw [hsheet] at hsource hrules ⊢
  obtain rfl : source = s.sheet.source := hsource
  exact hrules.in_bounds hs

theorem in_bounds_after {s : SheetSession} (hs : s.sheet.InBounds) {steps : List SheetStep}
    (h : ∀ step ∈ steps, step.KeepsSource) :
    (s.after steps).sheet.source = s.sheet.source ∧ (s.after steps).sheet.InBounds := by
  induction steps generalizing s with
  | nil => exact ⟨rfl, hs⟩
  | cons step steps ih =>
    have hstep := h step (by simp)
    obtain ⟨hsource, hbounds⟩ := ih (in_bounds_step hs hstep) fun x hx => h x (by simp [hx])
    exact ⟨hsource.trans (s.within_apply hstep).1, hbounds⟩

/-- After any steps on a sheet its positions are boundaries of the source, and it is
written exactly. -/
theorem written_exactly_after {css : Text} {s : Stylesheet} (h : Stylesheet.parse css = .ok s)
    (o : Options) {steps : List SheetStep} (hsteps : ∀ step ∈ steps, step.KeepsSource) :
    (after ⟨o, s⟩ steps).sheet.source = css ∧ (after ⟨o, s⟩ steps).sheet.InBounds ∧
      (after ⟨o, s⟩ steps).sheet.WrittenExactly := by
  obtain ⟨hsource, hbounds⟩ :=
    in_bounds_after (s := ⟨o, s⟩) (Stylesheet.in_bounds_of_parse h) hsteps
  exact ⟨hsource.trans (Stylesheet.parse_ok.mp h).2, hbounds, Stylesheet.written_exactly hbounds⟩

/-- A copy of a declaration goes to another rule, behind a new one. -/
theorem written_exactly_copied :
    Stylesheet.parse "a\x7bx:y\x7db\x7b\x7d".toList = .ok ⟨"a\x7bx:y\x7db\x7b\x7d".toList,
        [⟨['a'], [⟨['x'], ['y'], false, [], [':'], some 2⟩], 5⟩, ⟨['b'], [], 8⟩]⟩ ∧
      (after ⟨.all, ⟨"a\x7bx:y\x7db\x7b\x7d".toList,
          [⟨['a'], [⟨['x'], ['y'], false, [], [':'], some 2⟩], 5⟩, ⟨['b'], [], 8⟩]⟩⟩
        [.inRule 1 (.push (.fresh ['p'] ['q'] true)), .copy 0 0 1]).sheet.WrittenExactly := by
  have hparse : Stylesheet.parse "a\x7bx:y\x7db\x7b\x7d".toList = .ok ⟨"a\x7bx:y\x7db\x7b\x7d".toList,
      [⟨['a'], [⟨['x'], ['y'], false, [], [':'], some 2⟩], 5⟩, ⟨['b'], [], 8⟩]⟩ := rfl
  refine ⟨hparse, (written_exactly_after hparse .all ?_).2.2⟩
  intro step hstep
  simp only [List.mem_cons, List.not_mem_nil, or_false] at hstep
  rcases hstep with rfl | rfl
  · exact rfl
  · exact trivial

end SheetSession
end CssFallback
