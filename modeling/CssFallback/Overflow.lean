import CssFallback.Text.Basic

/-!
# Overflow

The keywords and properties that fallbacks are about, and the switches that say which
fallbacks are wanted. `clip` and `overlay` are not understood everywhere. Each has a
keyword that older engines understand in its place, and that needs no fallback itself.
-/

set_option autoImplicit false

namespace CssFallback

inductive Keyword where
  | clip
  | overlay
  | hidden
  | auto
  deriving DecidableEq, Repr

namespace Keyword

def all : List Keyword := [.clip, .overlay, .hidden, .auto]

def text : Keyword → Text
  | .clip => "clip".toList
  | .overlay => "overlay".toList
  | .hidden => "hidden".toList
  | .auto => "auto".toList

def ofText? (t : Text) : Option Keyword := all.find? fun k => k.text == t

def older? : Keyword → Option Keyword
  | .clip => some .hidden
  | .overlay => some .auto
  | .hidden => none
  | .auto => none

theorem of_own_text (k : Keyword) : ofText? k.text = some k := by
  cases k <;> decide

theorem text_of_found {t : Text} {k : Keyword} (h : ofText? t = some k) : k.text = t := by
  simpa using List.find?_some h

theorem of_text_iff {t : Text} {k : Keyword} : ofText? t = some k ↔ t = k.text :=
  ⟨fun h => (text_of_found h).symm, fun h => h ▸ of_own_text k⟩

end Keyword

/-!
## The overflow properties

The properties whose values may need a fallback: the shorthand, and one for each axis.
Names are matched as they are written, so `Overflow` and `overflow-wrap` are not among
them.
-/

inductive Property where
  /-- The only one that takes two keywords. -/
  | shorthand
  | block
  | inline
  | x
  | y
  deriving DecidableEq, Repr

namespace Property

def all : List Property := [.shorthand, .block, .inline, .x, .y]

def name : Property → Text
  | .shorthand => "overflow".toList
  | .block => "overflow-block".toList
  | .inline => "overflow-inline".toList
  | .x => "overflow-x".toList
  | .y => "overflow-y".toList

def ofName? (name : Text) : Option Property := all.find? fun p => p.name == name

theorem of_own_name (p : Property) : ofName? p.name = some p := by
  cases p <;> decide

theorem name_of_found {t : Text} {p : Property} (h : ofName? t = some p) : p.name = t := by
  simpa using List.find?_some h

theorem of_name_iff {t : Text} {p : Property} : ofName? t = some p ↔ t = p.name :=
  ⟨fun h => (name_of_found h).symm, fun h => h ▸ of_own_name p⟩

end Property

/-!
## Switches

Which fallbacks are wanted. Everything is on unless it is switched off.
-/

structure Options where
  /-- `auto` in front of `overlay`. -/
  overlay : Bool
  /-- `hidden` in front of `clip`. -/
  clip : Bool
  /-- Values of two keywords are handled too. -/
  pairs : Bool
  deriving DecidableEq, Repr

namespace Options

def all : Options := ⟨true, true, true⟩

def enables (o : Options) : Keyword → Bool
  | .clip => o.clip
  | .overlay => o.overlay
  | .hidden => false
  | .auto => false

def addsNothing (o : Options) : Bool := !o.overlay && !o.clip

theorem adds_nothing_iff (o : Options) : o.addsNothing = true ↔ ∀ k, o.enables k = false := by
  constructor
  · intro h k
    simp only [addsNothing, Bool.and_eq_true, Bool.not_eq_true'] at h
    cases k <;> simp [enables, h.1, h.2]
  · intro h
    have := h .clip
    have := h .overlay
    simp_all [addsNothing, enables]

end Options

end CssFallback
