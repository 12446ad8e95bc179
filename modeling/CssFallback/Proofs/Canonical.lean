import CssFallback.Proofs.Layout.Pieces
import CssFallback.Proofs.Stylesheet.Exact
import CssFallback.Proofs.Stylesheet.Landing

/-!
# A list as a sheet

A list of declarations in canonical form is the contents of a block. Adding fallbacks to
the text of that block is the same as adding them to the list and writing it.
-/

set_option autoImplicit false

namespace CssFallback

namespace Declaration

/-- The declaration as it stands in canonical form, between single spaces. -/
def spaced (place : Option Nat) (d : Declaration) : Declaration :=
  ⟨d.property, d.value, d.important, [' '], [':', ' '], place⟩

def spacedText (d : Declaration) : Text := d.canonicalText ++ [' ']

theorem lead_spaced (place : Option Nat) (d : Declaration) :
    (d.spaced place).leadText = d.spacedText := by
  have himportance : (d.spaced place).importance = d.importance := rfl
  rw [leadText, himportance, spacedText, canonicalText]
  simp only [spaced, List.append_assoc, List.cons_append, List.nil_append]

end Declaration

namespace Declarations

def spacedFrom : (position : Nat) → Declarations → Declarations
  | _, [] => []
  | position, d :: rest =>
    d.spaced (some position) :: spacedFrom (position + d.spacedText.byteSize) rest

def spacedText (list : Declarations) : Text := list.flatMap Declaration.spacedText

theorem canonical_spaced {list : Declarations} (h : list ≠ []) :
    list.canonicalText ++ [' '] = list.spacedText := by
  obtain ⟨d, list, rfl⟩ := List.exists_cons_of_ne_nil h
  clear h
  induction list generalizing d with
  | nil => simp [canonicalText, Text.joinedBy, spacedText, Declaration.spacedText]
  | cons e list ih =>
    have := ih e
    simp only [canonicalText, spacedText, List.map_cons, Text.joinedBy, List.flatMap_cons,
      Declaration.spacedText, List.append_assoc] at this ⊢
    rw [this]

/-- A list as the only rule of a sheet. -/
def sheetText (list : Declarations) : Text :=
  "a\x7b ".toList ++ list.canonicalText ++ " \x7d".toList

theorem sheet_spaced {list : Declarations} (h : list ≠ []) :
    list.sheetText = "a\x7b ".toList ++ (list.spacedText ++ ['\x7d']) := by
  have hend : " \x7d".toList = [' '] ++ ['\x7d'] := rfl
  rw [sheetText, hend, List.append_assoc, ← canonical_spaced h, List.append_assoc]

end Declarations

/-! ## Reading -/

namespace Layout

theorem marked_importance (d : Declaration) : PrintsMark d.important d.importance := by
  rw [Declaration.importance]
  cases d.important with
  | false => exact .plain
  | true => exact @PrintsMark.important [' '] [] _ rfl rfl (by decide)

theorem reads_value (d : Declaration) (h : isValue d.value = true) :
    ∃ ts, ReadsAs (d.value ++ d.importance) d.value d.important ts := by
  obtain ⟨ts, hsplits, hstands, himportance⟩ :=
    split_marked h (marked_importance d) (Text.starts_off_cons (p := goesOn) (c := ';') [] rfl)
  obtain ⟨hcalm, hne, hf, -⟩ := calm_of_value h
  refine ⟨ts, hsplits, hstands, ⟨by simp [hne], ?_⟩, by rw [← hsplits.text_of, himportance]⟩
  obtain ⟨c, v, hc⟩ := List.exists_cons_of_ne_nil hne
  rw [hc] at hcalm hf ⊢
  exact Text.starts_off_cons _ (space_off_calm (List.all_eq_true.mp hcalm c (by simp)) (by simpa using hf))

theorem written_spaced {d : Declaration} (h : properEntry d.entry = true) (place : Option Nat) :
    (d.spaced place).Written := by
  simp only [properEntry, Bool.and_eq_true] at h
  obtain ⟨c, more, hproperty, hc, hmore, -⟩ := name_characters h.1
  refine ⟨?_, ⟨[], [' '], rfl, rfl, rfl⟩, rfl, reads_value (d.spaced place) h.2⟩
  show IsName d.property
  rw [show d.property = c :: more from hproperty]
  exact .of_alpha hc hmore

end Layout

namespace Declarations

theorem lead_spaced_text (list : Declarations) :
    leadText (list.map (Declaration.spaced none)) = list.spacedText := by
  rw [leadText, List.flatMap_map, spacedText]
  exact congrArg (List.flatMap · list) (funext fun d => d.lead_spaced none)

theorem written_spaced {list : Declarations} (h : ∀ d ∈ list, Layout.properEntry d.entry = true) :
    ∀ d ∈ list.map (Declaration.spaced none), d.Written := by
  intro d hd
  obtain ⟨e, he, rfl⟩ := List.mem_map.mp hd
  exact Layout.written_spaced (h e he) none

theorem spaced_off_space {list : Declarations} (h : ∀ d ∈ list, Layout.properEntry d.entry = true)
    {rest : Text} (hr : rest.StartsOff isSpace) : (list.spacedText ++ rest).StartsOff isSpace := by
  rw [← lead_spaced_text]
  exact leads_off_space (written_spaced h) hr

theorem leads_spaced (b : Block) (hi : b.item = .none) (hg : b.gap = spaceTokens [' '])
    (position : Nat) (list : Declarations) :
    b.leads position (list.map (Declaration.spaced none)) =
      ⟨b.selector, b.declarations ++ spacedFrom position list, b.inner, spaceTokens [' '], .none⟩ := by
  induction list generalizing b position with
  | nil =>
    obtain ⟨selector, declarations, inner, gap, item⟩ := b
    obtain rfl : item = .none := hi
    obtain rfl : gap = spaceTokens [' '] := hg
    simp [Block.leads, spacedFrom]
  | cons d list ih =>
    have hindent : (Token.textOf b.gap.reverse).trailingBlanks = [' '] := by
      rw [hg]
      decide
    rw [List.map_cons, Block.leads, ih (b.lead position (d.spaced none)) rfl rfl, d.lead_spaced]
    simp [Block.lead, spacedFrom, Declaration.spaced, hindent]

theorem takes_spaced {list : Declarations} (h : ∀ d ∈ list, Layout.properEntry d.entry = true)
    (position : Nat) (sheet : RuleList) (b : Block) (outer : List Frame) (hi : b.item = .none)
    (hg : b.gap = spaceTokens [' ']) {rest : Text} (hr : rest.StartsOff isSpace) :
    (Reading.atBlock position sheet b outer).Takes list.spacedText rest
      (.atBlock (position + list.spacedText.byteSize) sheet
        ⟨b.selector, b.declarations ++ spacedFrom position list, b.inner, spaceTokens [' '], .none⟩
        outer) := by
  have htakes := takes_leads (written_spaced h) position sheet b outer hi hr
  rwa [lead_spaced_text, leads_spaced b hi hg] at htakes

theorem takes_open {rest : Text} (hr : rest.StartsOff isSpace) :
    Reading.start.Takes "a\x7b ".toList rest
      (.atBlock 3 .empty ⟨['a'], [], [], spaceTokens [' '], .none⟩ []) := by
  have hname : Splits ['a'] [⟨.ident, ['a']⟩] (['\x7b'] ++ [' '] ++ rest) :=
    Splits.name rfl rfl (Text.starts_off_cons _ rfl)
  have hbrace : Splits ['\x7b'] [⟨.opening .curly, ['\x7b']⟩] ([' '] ++ rest) := Splits.of_start rfl
  have hspace : Splits [' '] (spaceTokens [' ']) rest := Splits.spaces rfl hr
  exact ⟨_, hname.append (hbrace.append hspace), rfl⟩

/-- The sheet of a list is read as one rule with the list. -/
theorem parse_sheet {list : Declarations} (hne : list ≠ [])
    (h : ∀ d ∈ list, Layout.properEntry d.entry = true) : Stylesheet.parse list.sheetText =
      .ok ⟨list.sheetText, [⟨['a'], spacedFrom 3 list, 3 + list.spacedText.byteSize⟩]⟩ := by
  have hlist := takes_spaced h 3 .empty ⟨['a'], [], [], spaceTokens [' '], .none⟩ [] rfl rfl
    (Text.starts_off_cons (c := '\x7d') [] rfl)
  have hclose : ∀ q b, (Reading.atBlock q .empty b []).Takes ['\x7d'] []
      ⟨q + Text.byteSize ['\x7d'], [], ⟨b.rules q, none⟩, []⟩ := fun q b =>
    Reading.takes_mark rfl rfl
  have hopen := takes_open (spaced_off_space h (Text.starts_off_cons (c := '\x7d') [] rfl))
  rw [← List.append_nil (list.spacedText ++ ['\x7d'])] at hopen
  obtain ⟨ts, hsplits, hrun⟩ := hopen.append (hlist.append (hclose _ _))
  rw [← sheet_spaced hne, Splits, List.append_nil, lex, List.append_nil] at hsplits
  refine Stylesheet.parse_ok.mpr ⟨?_, rfl⟩
  rw [hsplits, hrun]
  simp [Except.map, Reading.finish, Reading.endFrames, Block.rules, Block.endItem, Item.declaration?]

end Declarations

/-! ## Sweeping -/

namespace Fallback
open Declarations

theorem additions_spaced (o : Options) {previous previous' : Option Declaration} {d : Declaration}
    (hp : previous'.map Declaration.property = previous.map Declaration.property)
    (place : Option Nat) :
    additions o previous' (d.spaced place) = (additions o previous d).map (Declaration.spaced none) := by
  have hguard : isGuarded previous' (d.spaced place) = isGuarded previous d := by
    have hany : ∀ (e : Option Declaration) (d : Declaration), isGuarded e d =
        (e.map Declaration.property).any fun p => p == d.property := by
      intro e d
      cases e <;> rfl
    rw [hany, hany, hp]
    rfl
  have hvalues : values o (d.spaced place) = values o d := rfl
  have hplain : Separator.plain [':', ' '] = [':', ' '] := by decide
  have hfallback : ∀ v, (d.spaced place).fallback v = (d.fallback v).spaced none := fun v => by
    simp only [Declaration.fallback, Declaration.spaced, hplain]
  have hproperty : (d.spaced place).property = d.property := rfl
  rw [additions, additions, hguard, hvalues, hproperty]
  split
  · simp [hfallback]
  · rfl

theorem counts_spaced (o : Options) (previous previous' : Option Declaration)
    (hp : previous'.map Declaration.property = previous.map Declaration.property)
    (position : Nat) (list : Declarations) :
    considered (spacedFrom position list) = considered list ∧
      added o previous' (spacedFrom position list) = added o previous list := by
  induction list generalizing position previous previous' with
  | nil => exact ⟨rfl, rfl⟩
  | cons d list ih =>
    obtain ⟨hconsidered, hadded⟩ := ih (some d) (some (d.spaced (some position))) rfl
      (position + d.spacedText.byteSize)
    have hfirst := additions_spaced o hp (d := d) (some position)
    constructor
    · have hd : (d.spaced (some position)).property = d.property := rfl
      rw [considered, considered] at hconsidered
      rw [spacedFrom, considered, considered, List.countP_cons, List.countP_cons, hconsidered, hd]
    · rw [spacedFrom, added, added, hfirst, hadded, List.length_map]

end Fallback

namespace Declarations

theorem spaced_text_append (s t : Declarations) : spacedText (s ++ t) = s.spacedText ++ t.spacedText :=
  List.flatMap_append

theorem place_spaced {position : Nat} {list : Declarations} {d : Declaration}
    (h : d ∈ spacedFrom position list) : ∃ q, d.place = some q ∧ position ≤ q := by
  induction list generalizing position with
  | nil => cases h
  | cons e list ih =>
    rcases List.mem_cons.mp h with rfl | h
    · exact ⟨position, rfl, Nat.le_refl _⟩
    · obtain ⟨q, hq, hle⟩ := ih h
      exact ⟨q, hq, Nat.le_trans (Nat.le_add_right _ _) hle⟩

theorem pieces_spaced {o : Options} {previous : Option Declaration} {position stop : Nat}
    {list : Declarations} (hs : position ≤ stop) {x : Nat} (hx : x < position) :
    Piece.textAt (Piece.ofDeclarations stop [] (Fallback.provided o previous
      (spacedFrom position list))) x = [] := by
  apply Piece.text_none
  intro y hy
  rw [Piece.of_declarations] at hy
  rcases List.mem_append.mp hy with hy | hy
  · obtain ⟨d, hd, hp⟩ := Piece.place_of_mem hy
    have hmem : d ∈ sourced (Fallback.provided o previous (spacedFrom position list)) :=
      List.mem_filter.mpr ⟨hd, by simp [hp]⟩
    rw [Fallback.sourced_provided] at hmem
    obtain ⟨q, hq, hle⟩ := place_spaced (List.mem_filter.mp hmem).1
    have := Option.some.inj (hp.symm.trans hq)
    omega
  · rw [Piece.ofRun] at hy
    split at hy
    · cases hy
    · rw [List.mem_singleton.mp hy]
      show stop ≠ x
      omega

/-- The fallbacks are written where they stand in the list. -/
theorem weave_spaced (o : Options) (previous previous' : Option Declaration)
    (hp : previous'.map Declaration.property = previous.map Declaration.property) (P : List Piece)
    (position stop : Nat) (list : Declarations) (hs : position + list.spacedText.byteSize = stop)
    (hP : ∀ x, position ≤ x → Piece.textAt P x = Piece.textAt (Piece.ofDeclarations stop []
      (Fallback.provided o previous' (spacedFrom position list))) x) :
    Piece.weave P position (list.spacedText ++ ['\x7d']) =
      (Fallback.provided o previous list).spacedText ++ ['\x7d'] := by
  induction list generalizing position previous previous' with
  | nil =>
    have hnone : ∀ x, position ≤ x → Piece.textAt P x = [] := fun x hx => hP x hx
    simp [spacedText, Fallback.provided, Piece.weave, hnone]
  | cons d list ih =>
    have htext : spacedText (d :: list) = d.spacedText ++ spacedText list := List.flatMap_cons
    obtain ⟨c, t, hd⟩ : ∃ c t, d.spacedText = c :: t :=
      List.exists_cons_of_ne_nil (by simp [Declaration.spacedText])
    have hsize : 0 < d.spacedText.byteSize := by
      have := c.utf8Size_pos
      simp only [hd, Text.byteSize]
      omega
    rw [htext, Text.byte_size_append, ← Nat.add_assoc] at hs
    -- what is written in front of the declaration, and what is written behind it
    have hpieces : Piece.ofDeclarations stop [] (Fallback.provided o previous'
        (spacedFrom position (d :: list))) =
        Piece.ofRun position (spacedText (Fallback.additions o previous d)) ++
          Piece.ofDeclarations stop [] (Fallback.provided o (some (d.spaced (some position)))
            (spacedFrom (position + d.spacedText.byteSize) list)) := by
      have hnone : ∀ f ∈ (Fallback.additions o previous d).map (Declaration.spaced none),
          f.place = none := by
        intro f hf
        obtain ⟨g, -, rfl⟩ := List.mem_map.mp hf
        rfl
      rw [spacedFrom, Fallback.provided, Fallback.additions_spaced o hp,
        Piece.of_placed hnone (show _ = some position from rfl), List.nil_append, ← leadText,
        lead_spaced_text]
    rw [hpieces] at hP
    have hbehind : ∀ x, x < position + d.spacedText.byteSize → Piece.textAt (Piece.ofDeclarations stop []
        (Fallback.provided o (some (d.spaced (some position)))
          (spacedFrom (position + d.spacedText.byteSize) list))) x = [] := fun x hx =>
      pieces_spaced (by omega) hx
    have hfront : Piece.textAt P position = spacedText (Fallback.additions o previous d) := by
      rw [hP position (Nat.le_refl _), Piece.text_append, Piece.text_run, hbehind _ (by omega)]
      simp
    have hmiddle : ∀ x, position < x → x < position + Text.byteSize (c :: t) →
        Piece.textAt P x = [] := by
      intro x hx hx'
      rw [← hd] at hx'
      rw [hP x (by omega), Piece.text_append, Piece.text_run, hbehind x hx', if_neg (by omega)]
      rfl
    have hrest := ih (some d) (some (d.spaced (some position))) rfl
      (position + d.spacedText.byteSize) hs fun x hx => by
        rw [hP x (by omega), Piece.text_append, Piece.text_run, if_neg (by omega), List.nil_append]
    rw [htext, hd, List.append_assoc, List.cons_append, Piece.weave_plain hmiddle, hfront, ← hd, hrest,
      Fallback.provided, spaced_text_append]
    simp [spacedText, hd]

end Declarations

namespace Stylesheet

theorem render_sheet (o : Options) {list : Declarations} (hne : list ≠ []) :
    render ⟨list.sheetText, [⟨['a'], Fallback.provided o none (Declarations.spacedFrom 3 list),
      3 + list.spacedText.byteSize⟩]⟩ = Declarations.sheetText (Fallback.provided o none list) := by
  have hswept : Fallback.provided o none list ≠ [] := by
    intro h
    have := Fallback.length_provided o none list
    rw [h, List.length_nil] at this
    exact hne (List.length_eq_zero_iff.mp (by omega))
  have hweave := Declarations.weave_spaced o none none rfl _ 3 _ list rfl fun x _ => rfl
  have hnone : ∀ x, x < 3 → Piece.textAt (Piece.ofDeclarations (3 + list.spacedText.byteSize) []
      (Fallback.provided o none (Declarations.spacedFrom 3 list))) x = [] := fun x hx =>
    Declarations.pieces_spaced (Nat.le_add_right _ _) hx
  have hopen : "a\x7b ".toList = 'a' :: (['\x7b', ' '] ++ []) := rfl
  rw [render, Declarations.sheet_spaced hne, Declarations.sheet_spaced hswept, ← hweave]
  simp only [List.flatMap_cons, List.flatMap_nil, List.append_nil, Piece.ofRule]
  have hplain := @Piece.weave_plain _ 0 'a' ['\x7b', ' '] (fun x _ hx => hnone x hx)
    (list.spacedText ++ ['\x7d'])
  rw [hnone 0 (by decide), List.nil_append] at hplain
  exact hplain

end Stylesheet

/-- Adding fallbacks to the text of a list gives the text of the list with its fallbacks,
and the same counts. -/
theorem text_and_list_agree (o : Options) {list : Declarations}
    (h : ∀ d ∈ list, Layout.properEntry d.entry = true) :
    addFallbacks o list.sheetText = .ok (Declarations.sheetText (Fallback.sweep o list).1) ∧
      ∃ s, Stylesheet.parse list.sheetText = .ok s ∧
        (s.sweep o).2 = ⟨1, (Fallback.sweep o list).2.considered, (Fallback.sweep o list).2.added⟩ := by
  by_cases hne : list = []
  · subst hne
    exact ⟨rfl, _, rfl, rfl⟩
  have hparse := Declarations.parse_sheet hne h
  obtain ⟨hconsidered, hadded⟩ :=
    Fallback.counts_spaced o none none rfl 3 list
  constructor
  · rw [addFallbacks, hparse, Except.map, Stylesheet.sweep_sheet, Fallback.sweep_local,
      ← Stylesheet.render_sheet o hne]
    rfl
  · refine ⟨_, hparse, ?_⟩
    rw [Stylesheet.sweep, Stylesheet.sweep_rules, Fallback.sweep_local]
    simp [declarationsOf, hconsidered, hadded]

/-- A list with an important declaration and a pair of keywords. -/
theorem text_and_list_agree_pair :
    addFallbacks .all (Declarations.sheetText [.fresh "color".toList "red".toList true,
        .fresh "overflow".toList "clip overlay".toList false]) =
      .ok (Declarations.sheetText (Fallback.sweep .all [.fresh "color".toList "red".toList true,
        .fresh "overflow".toList "clip overlay".toList false]).1) :=
  (text_and_list_agree .all (by decide)).1

end CssFallback
