import CssFallback.Proofs.Stylesheet.Mirror
import CssFallback.Proofs.Stylesheet.Reparse

/-!
# Where fallbacks are written

A fallback is written in front of a declaration of the source, where a name begins. All
brackets that are open there are blocks, and the innermost one is a block of declarations.
So no string, comment or url is cut, and nothing that stands in brackets of a prelude or
of a value is changed.
-/

set_option autoImplicit false

namespace CssFallback

namespace Stylesheet

/-- What a sweep writes, it writes in front of a declaration of the source. -/
theorem place_of_piece {css : Text} {s : Stylesheet} (h : parse css = .ok s) {o : Options} {x : Piece}
    (hx : x ∈ (s.sweep o).1.rules.flatMap Piece.ofRule) :
    ∃ d ∈ declarationsOf s.rules, d.place = some x.position := by
  have hled := ((tied_of_parse h).sweep o).led
  obtain ⟨d, hd, hplace⟩ := Landing.place_of_rules hled hx
  rw [sweep_sheet] at hd
  obtain ⟨r', hr', hd⟩ := List.mem_flatMap.mp hd
  obtain ⟨r, hr, rfl⟩ := List.mem_map.mp hr'
  have hsourced : d ∈ Declarations.sourced (Fallback.provided o none r.declarations) :=
    List.mem_filter.mpr ⟨hd, by simp [hplace]⟩
  rw [Fallback.sourced_provided] at hsourced
  exact ⟨d, List.mem_flatMap.mpr ⟨r, hr, (List.mem_filter.mp hsourced).1⟩, hplace⟩

end Stylesheet

namespace Stylesheet

end Stylesheet
end CssFallback
