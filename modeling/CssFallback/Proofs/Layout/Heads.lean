import CssFallback.Proofs.Layout.Pieces

/-!
# What stands in front of a block

Selectors and at-rules are split into tokens that open and end nothing. The first one
starts a rule, tells whether it is a grouping one, and is no custom property.
-/

set_option autoImplicit false

namespace CssFallback

namespace Layout

def IsPlain (t : Token) : Prop := t.opens? = none ∧ t.kind ≠ .semicolon ∧ t.kind ≠ .closing .curly

theorem IsPlain.not_curly {t : Token} (h : IsPlain t) : t.kind ≠ .opening .curly := by
  intro hk
  have hopens := h.1
  simp [Token.opens?, hk] at hopens

/-- The tokens of what stands in front of a block. -/
structure HeadTokens (head : Head) (t : Token) (ts : List Token) : Prop where
  plain : ∀ x ∈ t :: ts, IsPlain x
  solid : t.isTrivia = false
  kind : t.kind ≠ .cdo ∧ t.kind ≠ .cdc
  grouping : t.isGrouping = head.isGrouping
  /-- It is not read as a custom property. -/
  custom : "--".toList.isPrefixOf t.text = false

theorem calm_of_selector {u : Text} (h : isSelector u = true) : (∃ c v, u = c :: v ∧
    (c.isAlpha = true ∨ c ∈ ".#&*:".toList)) ∧ u.all isCalm = true ∧ u.getLast? ≠ some ' ' ∧
      '(' ∉ u ∧ ')' ∉ u := by
  simp only [isSelector, Bool.and_eq_true, bne_iff_ne] at h
  obtain ⟨⟨hf, hl⟩, hall⟩ := h
  rw [List.all_eq_true] at hall
  refine ⟨?_, ?_, hl, ?_, ?_⟩
  · cases u with
    | nil => simp at hf
    | cons c v => exact ⟨c, v, rfl, by simpa using hf⟩
  · rw [List.all_eq_true]
    intro c hc
    have := hall c hc
    simp only [isCalm, Bool.or_eq_true] at this ⊢
    apply this.imp_right
    intro h
    have : c = '.' ∨ c = '#' ∨ c = '&' ∨ c = '*' ∨ c = '>' ∨ c = ':' ∨ c = ',' ∨ c = '-' ∨ c = ' ' := by
      simpa using h
    rcases this with rfl | rfl | rfl | rfl | rfl | rfl | rfl | rfl | rfl <;> decide
  · intro hm
    cases hall _ hm
  · intro hm
    cases hall _ hm

theorem safe_of_start {c : Char} (h : c.isAlpha = true ∨ c ∈ ".#&*:".toList) :
    '-' ≠ c ∧ c ≠ ' ' ∧ c ≠ '/' ∧ isSpace c = false := by
  rcases h with h | h
  · exact ⟨(ne_of_class h rfl).symm, ne_of_class h rfl, ne_of_class h rfl, space_of_alpha h⟩
  · have : c = '.' ∨ c = '#' ∨ c = '&' ∨ c = '*' ∨ c = ':' := by simpa using h
    rcases this with rfl | rfl | rfl | rfl | rfl <;> decide

theorem split_selector {u rest : Text} (h : isSelector u = true) (hr : rest.StartsOff goesOn) :
    ∃ t ts, Splits u (t :: ts) rest ∧ HeadTokens (.selector u) t ts := by
  obtain ⟨⟨c, v, rfl, hc⟩, hcalm, hl, ho, hcl⟩ := calm_of_selector h
  obtain ⟨ts, hts, hk, -⟩ := splits_calm hcalm (Text.closes_plain ho hcl) hl hr
  have htext := hts.text_of
  cases ts with
  | nil => cases htext
  | cons t ts =>
    obtain ⟨hdash, -, hslash, hspace⟩ := safe_of_start hc
    have hkind := hk t (by simp)
    obtain ⟨more, hmore⟩ := Lexeme.head_text hts
    have hat : t.kind ≠ .atKeyword := Token.kind_ne_of_calm hkind rfl
    refine ⟨t, ts, hts, ⟨fun x hx => ⟨?_, ?_, ?_⟩, ?_, ⟨?_, ?_⟩, ?_, ?_⟩⟩
    · -- a token that opens a bracket would hold its mark
      cases hb : x.opens? with
      | none => rfl
      | some b =>
        have hmem : x ∈ lex (c :: v ++ rest) := by
          rw [hts]
          exact List.mem_append_left _ hx
        have hmark : b.mark ∈ c :: v := by
          rw [← htext]
          exact List.mem_flatMap.mpr ⟨x, hx, mark_of_opens hmem hb⟩
        cases b with
        | paren => exact absurd hmark ho
        | square => cases List.all_eq_true.mp hcalm _ hmark
        | curly => cases List.all_eq_true.mp hcalm _ hmark
    · exact Token.kind_ne_of_calm (hk x hx) rfl
    · exact Token.kind_ne_of_calm (hk x hx) rfl
    · exact hts.head_solid hspace hslash t rfl
    · exact Token.kind_ne_of_calm hkind rfl
    · intro hcdc
      have hstart := Lexeme.start_kind hts (by simp [hcdc]) (by simp [hcdc])
      exact hdash (Lexeme.start_cdc (hstart.trans hcdc)).symm
    · simp [Token.isGrouping, hat, Head.isGrouping]
    · simp [hmore, List.isPrefixOf, hdash]

theorem grouping_of_name {name : Text} (h : isName name = true) (more : Option Text) :
    (⟨.atKeyword, '@' :: name⟩ : Token).isGrouping = (Head.atRule name more).isGrouping := by
  obtain ⟨-, -, -, -, -, hletters⟩ := name_characters h
  have hplain : name.unescape = name := by
    apply unescape_plain
    intro d hd
    rcases hletters d hd with hd | rfl
    · exact ⟨ne_of_class hd rfl, ne_of_class hd rfl⟩
    · decide
  simp [Token.isGrouping, Head.isGrouping, hplain]

theorem split_head {head : Head} (h : head.isProper = true) {rest : Text}
    (hr : rest.StartsOff goesOn) : ∃ t ts, Splits head.text (t :: ts) rest ∧ HeadTokens head t ts := by
  cases head with
  | selector u => exact split_selector h hr
  | atRule name more =>
    simp only [Head.isProper, Bool.and_eq_true] at h
    obtain ⟨c, tail, rfl, hc, htail, -⟩ := name_characters h.1
    have hgroup := grouping_of_name h.1 more
    have hkeyword : IsPlain ⟨.atKeyword, '@' :: c :: tail⟩ := by simp [IsPlain, Token.opens?]
    have hoff := name_ends hr
    cases more with
    | none =>
      refine ⟨_, [], Splits.at_keyword hc htail hoff, ?_, rfl, by simp, hgroup, rfl⟩
      simpa using hkeyword
    | some u =>
      obtain ⟨t, ts, hts, hhead⟩ := split_selector (u := u) (by simpa using h.2) hr
      obtain ⟨⟨d, v, rfl, hd⟩, -⟩ := calm_of_selector (u := u) (by simpa using h.2)
      have hspace : Splits [' '] [⟨.space, [' ']⟩] (d :: v ++ rest) :=
        Splits.space (by simp) rfl (Text.starts_off_cons _ (safe_of_start hd).2.2.2)
      have hname : Splits ('@' :: c :: tail) _ (' ' :: (d :: v) ++ rest) :=
        Splits.at_keyword hc htail (Text.starts_off_cons _ rfl)
      refine ⟨_, _, hname.append (hspace.append hts), fun x hx => ?_, rfl, by simp, hgroup, rfl⟩
      rcases List.mem_cons.mp hx with rfl | hx
      · exact hkeyword
      rcases List.mem_cons.mp hx with rfl | hx
      · simp [IsPlain, Token.opens?]
      · exact hhead.plain x hx

theorem solid_selector {u : Text} (h : isSelector u = true) : u.Solid := by
  obtain ⟨⟨c, v, rfl, hc⟩, hcalm, hl, -⟩ := calm_of_selector h
  exact solid_calm hcalm (by simp) (by simpa using (safe_of_start hc).2.1) hl

theorem solid_head {head : Head} (h : head.isProper = true) : head.text.Solid := by
  have hat : isBlank '@' = false := by decide
  cases head with
  | selector u => exact solid_selector h
  | atRule name more =>
    simp only [Head.isProper, Bool.and_eq_true] at h
    cases more with
    | none =>
      obtain ⟨c, tail, rfl, -, -, hletters⟩ := name_characters h.1
      have hne : c :: tail ≠ [] := by simp
      refine ⟨⟨'@', c :: tail, rfl, hat⟩, '@' :: (c :: tail).dropLast, (c :: tail).getLast hne, ?_, ?_⟩
      · rw [List.cons_append, List.dropLast_concat_getLast hne]
        rfl
      · rcases hletters _ (List.getLast_mem hne) with hd | hd
        · exact blank_of_alpha hd
        · rw [hd]
          decide
    | some u =>
      obtain ⟨-, v, d, hu, hd⟩ := solid_selector (u := u) (by simpa using h.2)
      exact ⟨⟨'@', name ++ ' ' :: u, rfl, hat⟩, '@' :: (name ++ ' ' :: v), d, by simp [Head.text, hu], hd⟩

end Layout
end CssFallback
