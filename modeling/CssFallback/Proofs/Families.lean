import CssFallback.Proofs.Fallback.Absorption
import CssFallback.Proofs.Stylesheet.Reparse

/-!
# One family after the other

A sweep for both families of keywords does what two sweeps do, the first for `clip` and
the second for `overlay`. The second one finds the fallbacks of the first one in place:
it goes on in front of them, and they guard what stands behind them.
-/

set_option autoImplicit false

namespace CssFallback

/-!
## Sweeping a stylesheet again

Options that want no more than those of an earlier run find nothing left to do, neither
in a list that is still in memory nor in the text that the earlier run has written.
-/

namespace Stylesheet

theorem sweep_again {o o' : Options} (hb : o.Below o') (s : Stylesheet) :
    ((s.sweep o').1.sweep o).1 = (s.sweep o').1 := by
  have hr : ∀ r ∈ s.rules, (Rule.provided o ∘ Rule.provided o') r = r.provided o' := by
    intro r _
    simp [Rule.provided, Fallback.provided_provided hb]
  rw [sweep_sheet o, sweep_sheet o', List.map_map, List.map_congr_left hr]

end Stylesheet

/-- A run with fewer options adds nothing to what a run with more has left. -/
theorem fallbacks_absorbed {o o' : Options} (hb : o.Below o') :
    (∀ list, (Fallback.sweep o (Fallback.sweep o' list).1).1 = (Fallback.sweep o' list).1 ∧
      (Fallback.sweep o (Fallback.sweep o' list).1).2.added = 0) ∧
    ∀ css out, addFallbacks o' css = .ok out → addFallbacks o out = .ok out := by
  refine ⟨Fallback.sweep_again hb, fun css out h => ?_⟩
  rw [addFallbacks] at h
  cases hs : Stylesheet.parse css with
  | error e => simp [hs, Except.map] at h
  | ok s =>
    obtain rfl : (s.sweep o').1.render = out := by simpa [hs, Except.map] using h
    obtain ⟨t, ht, hparse⟩ := ((Stylesheet.tied_of_parse hs).sweep o').settle
    have hrender := (ht.sweep o).render
    rw [Stylesheet.sweep_again hb] at hrender
    rw [addFallbacks, hparse]
    simp [Except.map, hrender]

/-- Options without the overlay switch, after all of them. -/
theorem fallbacks_absorbed_clip : Options.Below ⟨false, true, true⟩ .all ∧
    ((∀ list, (Fallback.sweep ⟨false, true, true⟩ (Fallback.sweep .all list).1).1 =
        (Fallback.sweep .all list).1 ∧
      (Fallback.sweep ⟨false, true, true⟩ (Fallback.sweep .all list).1).2.added = 0) ∧
    ∀ css out, addFallbacks .all css = .ok out → addFallbacks ⟨false, true, true⟩ out = .ok out) :=
  ⟨⟨nofun, fun _ => rfl, fun _ => rfl⟩, fallbacks_absorbed ⟨nofun, fun _ => rfl, fun _ => rfl⟩⟩

/-! ## Two sweeps for one -/

namespace Options

def both (pairs : Bool) : Options := ⟨true, true, pairs⟩

def onlyClip (pairs : Bool) : Options := ⟨false, true, pairs⟩

def onlyOverlay (pairs : Bool) : Options := ⟨true, false, pairs⟩

end Options

namespace Fallback
open ValuePart

section
variable (pairs : Bool)

theorem stages_only_clip (a b : Text) : stageValues (.onlyClip pairs) stages (pairParts a b) =
    if a = Keyword.text .clip ∨ b = Keyword.text .clip then
      [pairText (reword (.both pairs) a .clip) (reword (.both pairs) b .clip)]
    else [] := by
  have hclip : (replacement? (.onlyClip pairs) .clip).isSome = true := rfl
  rw [stages, stage_pair, hclip]
  simp only [true_and]
  rfl

/-- The stage of `overlay` goes on with what the stage of `clip` has left. -/
theorem stages_both (a b : Text) : stageValues (.both pairs) stages (pairParts a b) =
    stageValues (.onlyOverlay pairs) stages
      (pairParts (reword (.both pairs) a .clip) (reword (.both pairs) b .clip)) ++
        stageValues (.onlyClip pairs) stages (pairParts a b) := by
  have hclip : (replacement? (.both pairs) .clip).isSome = true := rfl
  have hoverlay : ∀ x y, stageValues (.both pairs) [.overlay] (pairParts x y) =
      stageValues (.onlyOverlay pairs) stages (pairParts x y) := fun _ _ => rfl
  rw [stages_only_clip, stages, stage_pair, hclip, hoverlay]
  simp only [true_and]
  rfl

/-- The fallbacks for both families are those for `clip`, with those for `overlay` of what
is then in front. -/
theorem values_both (d : Declaration) : values (.both pairs) d =
    values (.onlyOverlay pairs) (first d ((values (.onlyClip pairs) d).map d.fallback)) ++
      values (.onlyClip pairs) d := by
  rcases values_cases d with ⟨k, hk⟩ | ⟨a, b, ha, hb, hv⟩ | hnone
  · have hvalues : ∀ o : Options, values o d = (replacement? o k).toList := by
      intro o
      simp [values_eq, hk]
    obtain ⟨-, rfl | rfl⟩ := modern_cases hk
    · have hhidden : values (.onlyOverlay pairs) (d.fallback (Keyword.text .hidden)) = [] :=
        values_word _ d (by decide) (by decide)
      have hclip : values (.onlyClip pairs) d = [Keyword.text .hidden] := hvalues _
      rw [hclip, List.map_singleton, first_cons, hhidden]
      exact hvalues _
    · have hclip : values (.onlyClip pairs) d = [] := hvalues _
      rw [hclip, List.map_nil, first_nil, List.append_nil, hvalues, hvalues]
      rfl
  · by_cases hd : pairs = true ∧ Property.ofName? d.property = some .shorthand
    · have hboth : values (.both pairs) d = stageValues (.both pairs) stages (pairParts a b) :=
        (values_pair _ ha hb hv).trans (if_pos hd)
      have hclip : values (.onlyClip pairs) d = stageValues (.onlyClip pairs) stages (pairParts a b) :=
        (values_pair _ ha hb hv).trans (if_pos hd)
      rw [hboth, hclip, stages_both, List.append_left_inj, stages_only_clip]
      symm
      split
      · exact (values_pair _ (reword_plain _ _ ha) (reword_plain _ _ hb) rfl).trans (if_pos hd)
      · rename_i hw
        rw [reword_other _ fun h => hw (.inl h), reword_other _ fun h => hw (.inr h)]
        exact (values_pair _ ha hb hv).trans (if_pos hd)
    · have hnone : ∀ clip overlay, values ⟨overlay, clip, pairs⟩ d = [] := fun _ _ =>
        (values_pair _ ha hb hv).trans (if_neg hd)
      rw [Options.both, Options.onlyClip, Options.onlyOverlay, hnone, hnone, List.map_nil, first_nil,
        hnone]
      rfl
  · rw [hnone, hnone (.onlyClip pairs), List.map_nil, first_nil, hnone]
    rfl

theorem additions_both (previous : Option Declaration) (d : Declaration) :
    additions (.both pairs) previous d =
      additions (.onlyOverlay pairs) previous (first d (additions (.onlyClip pairs) previous d)) ++
        additions (.onlyClip pairs) previous d := by
  by_cases hf : ((Property.ofName? d.property).isSome && !isGuarded previous d) = true
  · have hclip : additions (.onlyClip pairs) previous d =
        (values (.onlyClip pairs) d).map d.fallback := if_pos hf
    have hboth : additions (.both pairs) previous d = (values (.both pairs) d).map d.fallback :=
      if_pos hf
    have hfirst : ∀ run : List Text, additions (.onlyOverlay pairs) previous
        (first d (run.map d.fallback)) =
          (values (.onlyOverlay pairs) (first d (run.map d.fallback))).map d.fallback := by
      intro run
      cases run with
      | nil => exact if_pos hf
      | cons v vs =>
        have hv : additions (.onlyOverlay pairs) previous (d.fallback v) =
            (values (.onlyOverlay pairs) (d.fallback v)).map (d.fallback v).fallback := if_pos hf
        rw [List.map_cons, first_cons, hv, funext (Declaration.fallback_fallback d v)]
    rw [hclip, hboth, hfirst, values_both, List.map_append]
  · have hnone : ∀ o : Options, additions o previous d = [] := fun _ => if_neg hf
    rw [hnone, hnone (.onlyClip pairs), first_nil, hnone]
    rfl

theorem provided_both (previous : Option Declaration) (list : Declarations) :
    provided (.both pairs) previous list =
      provided (.onlyOverlay pairs) previous (provided (.onlyClip pairs) previous list) := by
  induction list generalizing previous with
  | nil => rfl
  | cons d rest ih =>
    rw [provided, provided, provided_run _ _ _ _ _ fun x hx => (mem_additions hx).1,
      additions_both, ih, List.append_assoc]

theorem added_both (previous : Option Declaration) (list : Declarations) :
    added (.both pairs) previous list = added (.onlyClip pairs) previous list +
      added (.onlyOverlay pairs) previous (provided (.onlyClip pairs) previous list) := by
  have hboth := length_provided (.both pairs) previous list
  have hclip := length_provided (.onlyClip pairs) previous list
  have hoverlay := length_provided (.onlyOverlay pairs) previous
    (provided (.onlyClip pairs) previous list)
  rw [← provided_both] at hoverlay
  omega

theorem sweep_both (list : Declarations) :
    (sweep (.both pairs) list).1 =
        (sweep (.onlyOverlay pairs) (sweep (.onlyClip pairs) list).1).1 ∧
      (sweep (.both pairs) list).2.added = (sweep (.onlyClip pairs) list).2.added +
        (sweep (.onlyOverlay pairs) (sweep (.onlyClip pairs) list).1).2.added := by
  simp only [sweep_local]
  exact ⟨provided_both pairs none list, added_both pairs none list⟩

end
end Fallback

namespace Stylesheet

theorem sweep_sheet_both (pairs : Bool) (s : Stylesheet) :
    (s.sweep (.both pairs)).1 = ((s.sweep (.onlyClip pairs)).1.sweep (.onlyOverlay pairs)).1 := by
  have hr : ∀ r ∈ s.rules, Rule.provided (.both pairs) r =
      (Rule.provided (.onlyOverlay pairs) ∘ Rule.provided (.onlyClip pairs)) r := by
    intro r _
    simp [Rule.provided, Fallback.provided_both]
  rw [sweep_sheet, sweep_sheet, sweep_sheet, List.map_map, List.map_congr_left hr]

theorem add_fallbacks_sweep {css : Text} {s : Stylesheet} (h : parse css = .ok s)
    (o o' : Options) : addFallbacks o' (s.sweep o).1.render = .ok ((s.sweep o).1.sweep o').1.render := by
  obtain ⟨t, ht, hparse⟩ := ((tied_of_parse h).sweep o).settle
  rw [addFallbacks, hparse, Except.map, (ht.sweep o').render]

end Stylesheet

/-- A sweep for both families is a sweep for `clip` and then one for `overlay`, of a list
and of the text of a stylesheet, which fails to be read in both cases or in neither. -/
theorem families_factor (pairs : Bool) :
    (∀ list, (Fallback.sweep (.both pairs) list).1 =
        (Fallback.sweep (.onlyOverlay pairs) (Fallback.sweep (.onlyClip pairs) list).1).1 ∧
      (Fallback.sweep (.both pairs) list).2.added =
        (Fallback.sweep (.onlyClip pairs) list).2.added +
          (Fallback.sweep (.onlyOverlay pairs)
            (Fallback.sweep (.onlyClip pairs) list).1).2.added) ∧
    ∀ css, addFallbacks (.both pairs) css =
      (addFallbacks (.onlyClip pairs) css).bind (addFallbacks (.onlyOverlay pairs)) := by
  refine ⟨Fallback.sweep_both pairs, fun css => ?_⟩
  cases hs : Stylesheet.parse css with
  | error e => simp [addFallbacks, hs, Except.map, Except.bind]
  | ok s =>
    have hclip : addFallbacks (.onlyClip pairs) css = .ok (s.sweep (.onlyClip pairs)).1.render := by
      rw [addFallbacks, hs, Except.map]
    have hboth : addFallbacks (.both pairs) css = .ok (s.sweep (.both pairs)).1.render := by
      rw [addFallbacks, hs, Except.map]
    rw [hclip, hboth, Stylesheet.sweep_sheet_both]
    exact (Stylesheet.add_fallbacks_sweep hs _ _).symm

end CssFallback
