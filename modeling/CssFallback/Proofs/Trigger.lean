import CssFallback.Proofs.Stylesheet.Body
import CssFallback.Proofs.Stylesheet.Landing

/-!
# What triggers a fallback

A declaration gets a fallback for the text of its value, which has been trimmed of all
blanks. In the source the value is a run of tokens, and a blank that is no white space is
a part of one of them. The tokens are those of a keyword, or of a pair, unless such a
blank stands in them.
-/

set_option autoImplicit false

namespace CssFallback

/-! ## Reading the tokens of a value -/

namespace Token

def withoutMark (ts : List Token) : List Token :=
  match ts.reverse with
  | word :: mark :: front =>
    if mark = ⟨.delim, ['!']⟩ ∧ word.kind = .ident ∧
      word.text.sameIgnoringCase "important".toList = true then front.reverse else ts
  | _ => ts

/-- The tokens are one modern keyword, or, for the shorthand, two plain words. -/
def isGenuine (property : Text) : List Token → Bool
  | [⟨.ident, word⟩] => word == "clip".toList || word == "overlay".toList
  | [⟨.ident, first⟩, ⟨.ident, second⟩] =>
    property == "overflow".toList && ValuePart.isPlainWord first && ValuePart.isPlainWord second
  | _ => false

/-- Every blank in the token is white space of a stylesheet. -/
def Undisguised (t : Token) : Prop := ∀ c ∈ t.text, isBlank c = true → isSpace c = true

instance : DecidablePred Undisguised := fun t =>
  List.decidableBAll (fun c => isBlank c = true → isSpace c = true) t.text

theorem mark_cases (ts : List Token) : withoutMark ts = ts ∨ ∃ word : Token,
    word.text.sameIgnoringCase "important".toList = true ∧
      ts = withoutMark ts ++ [⟨.delim, ['!']⟩, word] := by
  rw [withoutMark]
  split
  · rename_i word mark front hrev
    split
    · rename_i hmark
      obtain ⟨rfl, -, hword⟩ := hmark
      refine .inr ⟨word, hword, ?_⟩
      rw [← List.reverse_reverse ts, hrev]
      simp
    · exact .inl rfl
  · exact .inl rfl

theorem without_mark_marked (ts : List Token) {word : Text}
    (h : word.sameIgnoringCase "important".toList = true) :
    withoutMark (ts ++ [⟨.delim, ['!']⟩, ⟨.ident, word⟩]) = ts := by
  simp only [withoutMark, List.reverse_append, List.reverse_cons, List.reverse_nil, List.nil_append,
    List.cons_append, h, and_self, if_true, List.reverse_reverse]

theorem without_mark_plain {ts : List Token} (h : ∀ t ∈ ts, t.kind ≠ .delim) :
    withoutMark ts = ts := by
  rcases mark_cases ts with hts | ⟨word, -, hts⟩
  · exact hts
  · have hmem : (⟨.delim, ['!']⟩ : Token) ∈ ts := by
      rw [hts]
      simp
    exact absurd rfl (h _ hmem)

theorem undisguised_letters {t : Token} (h : ∀ c ∈ t.text, c.isAlpha = true) : t.Undisguised := by
  intro c hc hblank
  simp [blank_of_alpha (h c hc)] at hblank

theorem genuine_letters {property : Text} {ts : List Token} (h : isGenuine property ts = true) :
    ∀ t ∈ ts, ∀ c ∈ t.text, c.isAlpha = true := by
  have hword : ∀ {w : Text}, ValuePart.isPlainWord w = true → ∀ c ∈ w, c.isAlpha = true := by
    intro w hw
    simp only [ValuePart.isPlainWord, Bool.and_eq_true, List.all_eq_true] at hw
    exact hw.2
  rw [isGenuine.eq_def] at h
  split at h
  · rename_i word
    have hplain : ValuePart.isPlainWord word = true := by
      simp only [Bool.or_eq_true, beq_iff_eq] at h
      rcases h with rfl | rfl <;> decide
    simpa using hword hplain
  · simp only [Bool.and_eq_true] at h
    simpa using ⟨hword h.1.2, hword h.2⟩
  · cases h

theorem undisguised_of_genuine {property : Text} {ts : List Token}
    (h : isGenuine property (withoutMark (solid ts)) = true) :
    ∀ t ∈ ts, t.isTrivia = false → t.Undisguised := by
  intro t ht hs
  have hmem : t ∈ solid ts := List.mem_filter.mpr ⟨ht, by simp [hs]⟩
  have hwords : ∀ u ∈ withoutMark (solid ts), u.Undisguised := fun u hu =>
    undisguised_letters (genuine_letters h u hu)
  rcases mark_cases (solid ts) with hts | ⟨word, hword, hts⟩
  · exact hwords t (by rwa [hts])
  · rw [hts, List.mem_append] at hmem
    rcases hmem with hmem | hmem
    · exact hwords t hmem
    · simp only [List.mem_cons, List.not_mem_nil, or_false] at hmem
      rcases hmem with rfl | rfl
      · intro c hc hblank
        obtain rfl := List.mem_singleton.mp hc
        cases hblank
      · exact undisguised_letters (Importance.letters_of_same hword).2

end Token

/-! ## What has a fallback -/

namespace Fallback
open ValuePart

theorem value_of_values {o : Options} {d : Declaration} (h : values o d ≠ []) :
    (d.value = "clip".toList ∨ d.value = "overlay".toList) ∨
      d.property = "overflow".toList ∧ ∃ a b, isPlainWord a = true ∧ isPlainWord b = true ∧
        d.value = pairText a b := by
  rw [values_eq] at h
  split at h
  · rename_i k hk
    obtain ⟨hk, hold⟩ := Option.filter_eq_some_iff.mp hk
    have hvalue := Keyword.of_text_iff.mp hk
    left
    cases k with
    | clip => exact .inl hvalue
    | overlay => exact .inr hvalue
    | hidden => cases hold
    | auto => cases hold
  · right
    split at h
    · rename_i hp
      obtain ⟨a, b, ha, hb, hparts⟩ := handled_pair hp
      simp only [isHandledPair, Bool.and_eq_true, beq_iff_eq] at hp
      refine ⟨Property.of_name_iff.mp hp.1.2, a, b, ha, hb, ?_⟩
      rw [← text_of_value_parts d.value, hparts, text_of_pair]
    · exact absurd rfl h

theorem splits_trigger {o : Options} {d : Declaration} (h : values o d ≠ []) :
    IsPlainValue d.value ∧ ∃ ts, (∀ t ∈ ts, t.kind ≠ .delim) ∧
      Token.isGenuine d.property (Token.solid ts) = true ∧
      ∀ {rest : Text}, rest.StartsOff extendsName → Splits d.value ts rest := by
  have hword : isPlainWord d.value = true → d.value = "clip".toList ∨ d.value = "overlay".toList →
      IsPlainValue d.value ∧ ∃ ts, (∀ t ∈ ts, t.kind ≠ .delim) ∧
        Token.isGenuine d.property (Token.solid ts) = true ∧
        ∀ {rest : Text}, rest.StartsOff extendsName → Splits d.value ts rest := by
    intro hplain hvalue
    refine ⟨.inl hplain, [⟨.ident, d.value⟩], by simp, ?_, splits_plain_word hplain⟩
    simpa [Token.solid, Token.isTrivia, Token.isGenuine] using hvalue
  rcases value_of_values h with hvalue | ⟨hp, a, b, ha, hb, hvalue⟩
  · exact hword (by rcases hvalue with hv | hv <;> rw [hv] <;> decide) hvalue
  · rw [hvalue]
    refine ⟨.inr ⟨a, b, ha, hb, rfl⟩, _, ?_, ?_, splits_pair ha hb⟩
    · simp
    · simp [Token.solid, Token.isTrivia, Token.isGenuine, hp, ha, hb]

theorem values_of_adjacent {o : Options} {previous : Option Declaration} {list : Declarations}
    (hlist : ∀ e ∈ list, e.place ≠ none) {f d : Declaration}
    (h : [f, d] <:+: provided o previous list) (hf : f.place = none) (hd : d.place ≠ none) :
    d ∈ list ∧ values o d ≠ [] := by
  induction list generalizing previous with
  | nil => simp [provided] at h
  | cons e rest ih =>
    have he : e.place ≠ none := hlist e (by simp)
    -- the pair stands behind `e`, or among what has been added to it
    have hcases : ∀ added : Declarations, (∀ x ∈ added, x.place = none) →
        [f, d] <:+: added ++ e :: provided o (some e) rest →
          d = e ∧ added ≠ [] ∨ [f, d] <:+: provided o (some e) rest := by
      intro added hadded hpair
      induction added with
      | nil =>
        rcases List.infix_cons_iff.mp hpair with hfirst | hrest
        · obtain ⟨rfl, -⟩ := List.cons_prefix_cons.mp hfirst
          exact absurd hf he
        · exact .inr hrest
      | cons x added ih' =>
        rw [List.cons_append, List.infix_cons_iff] at hpair
        rcases hpair with hfirst | hrest
        · obtain ⟨-, hsecond⟩ := List.cons_prefix_cons.mp hfirst
          cases added with
          | nil => exact .inl ⟨(List.cons_prefix_cons.mp hsecond).1, by simp⟩
          | cons y added =>
            obtain ⟨rfl, -⟩ := List.cons_prefix_cons.mp hsecond
            exact absurd (hadded d (by simp)) hd
        · rcases ih' (fun y hy => hadded y (by simp [hy])) hrest with ⟨heq, -⟩ | hrest
          · exact .inl ⟨heq, by simp⟩
          · exact .inr hrest
    rcases hcases _ (fun x hx => unplaced_of_mem_additions hx) h with ⟨rfl, hne⟩ | hrest
    · refine ⟨by simp, fun hnil => hne ?_⟩
      rw [additions, hnil]
      simp
    · obtain ⟨hmem, hvalues⟩ := ih (fun x hx => hlist x (by simp [hx])) hrest
      exact ⟨by simp [hmem], hvalues⟩

end Fallback

/-! ## In place -/

/-- The tokens of a text behind which white space stands that they may have taken in. -/
theorem solid_of_prefix {css u sp : Text} {ts xs rest : List Token}
    (hs : Splits u ts (sp ++ Token.textOf rest)) (hsp : sp.all isSpace = true)
    (hlex : lex css = xs ++ rest) (hxs : Token.textOf xs = u ++ sp) :
    Token.solid xs = Token.solid ts := by
  have hcss : css = u ++ (sp ++ Token.textOf rest) := by
    rw [← text_of_lex css, hlex, Token.text_of_append, hxs, List.append_assoc]
  have hboth : xs ++ rest = ts ++ lex (sp ++ Token.textOf rest) := by
    rw [← hlex, hcss, hs]
  have htext := hs.text_of
  rcases List.append_eq_append_iff.mp hboth with ⟨more, rfl, -⟩ | ⟨more, rfl, -⟩
  · -- `xs` ends where `ts` does or earlier
    have hnil : sp = [] ∧ Token.textOf more = [] := by
      rw [Token.text_of_append, hxs, List.append_assoc] at htext
      simpa using htext
    have hmore : more = [] := by
      cases more with
      | nil => rfl
      | cons t more =>
        have hmem : t ∈ lex css := by
          rw [hlex, hboth]
          simp
        exact absurd (List.append_eq_nil_iff.mp hnil.2).1 (text_ne_nil_of_mem_lex css t hmem)
    rw [hmore, List.append_nil]
  · -- what more there is in `xs` is white space
    have hspace : Token.textOf more = sp := by
      rw [Token.text_of_append, htext] at hxs
      exact List.append_cancel_left hxs
    have htrivia : ∀ t ∈ more, t.isTrivia = true :=
      trivia_of_space css (fun t ht => by rw [hlex]; simp [ht]) (by rw [hspace, hsp])
    rw [Token.solid_append, Token.solid_trivia htrivia, List.append_nil]

theorem solid_spaces (sp : Text) : Token.solid (spaceTokens sp) = [] :=
  Token.solid_trivia fun _ => trivia_of_mem_space_tokens

theorem splits_follows {behind : Text} (h : Importance.Follows behind)
    (hs : ∀ c ∈ behind, isBlank c = true → isSpace c = true) : ∃ mark sp ts, behind = mark ++ sp ∧
      sp.all isSpace = true ∧
      (Token.solid ts = [] ∨ ∃ word : Text, word.sameIgnoringCase "important".toList = true ∧
        Token.solid ts = [⟨.delim, ['!']⟩, ⟨.ident, word⟩]) ∧
      ∀ {rest : Text}, rest.StartsOff extendsName → Splits mark ts (sp ++ rest) ∧
        (mark ++ (sp ++ rest)).StartsOff extendsName := by
  have hspaces : ∀ {sp : Text}, sp.all isBlank = true → sp ⊆ behind → sp.all isSpace = true := by
    intro sp hsp hmem
    rw [List.all_eq_true] at hsp ⊢
    exact fun c hc => hs c (hmem hc) (hsp c hc)
  rcases h with hblank | ⟨before, after, word, last, hb, ha, hl, hword, rfl⟩
  · have hsp := hspaces hblank (List.Subset.refl _)
    refine ⟨[], behind, [], rfl, hsp, .inl rfl, fun hr => ⟨Splits.nil _, ?_⟩⟩
    exact Text.starts_off_spaces hsp hr
  · have hb := hspaces hb (by simp)
    have ha := hspaces ha (fun c hc => by simp [hc])
    have hl := hspaces hl (fun c hc => by simp [hc])
    obtain ⟨hne, hletters⟩ := Importance.letters_of_same hword
    obtain ⟨c, name, rfl⟩ := List.exists_cons_of_ne_nil hne
    have hname : name.all isNameCharacter = true := by
      rw [List.all_eq_true]
      intro x hx
      simp [isNameCharacter, isNameStart, hletters x (by simp [hx])]
    refine ⟨before ++ '!' :: (after ++ c :: name), last, spaceTokens before ++
      ([⟨.delim, ['!']⟩] ++ (spaceTokens after ++ [⟨.ident, c :: name⟩])), by simp, hl,
      .inr ⟨c :: name, hword, ?_⟩, fun {rest} hr => ⟨?_, ?_⟩⟩
    · simp only [Token.solid_append, solid_spaces, List.nil_append]
      rfl
    · have hident := Splits.name (hletters c (by simp)) hname (Text.starts_off_spaces hl hr)
      have hafter := (Splits.spaces ha (Text.starts_off_cons _
        (space_of_alpha (hletters c (by simp))))).append hident
      have hbang : Splits ['!'] [⟨.delim, ['!']⟩] (after ++ (c :: name) ++ (last ++ rest)) :=
        Splits.of_start rfl
      exact (Splits.spaces hb (Text.starts_off_cons _ rfl)).append (hbang.append hafter)
    · rw [List.append_assoc]
      exact Text.starts_off_spaces hb (Text.starts_off_cons _ rfl)

namespace Anchor
variable {css : Text} {rules : List Rule} {p : Nat} {d : Declaration} (a : Anchor css rules p d)
include a

theorem split_body : Importance.split (Token.textOf a.body.reverse) = (d.value, d.important) := by
  have hd := Option.some.inj a.declared
  exact Prod.ext (congrArg Declaration.value hd) (congrArg Declaration.important hd)

theorem value_ends : (Token.textOf (a.trail.reverse ++ a.back)).StartsOff extendsName := by
  have hlex : lex css = (a.front ++ a.name :: (a.separator.reverse ++ a.body.reverse)) ++
      (a.trail.reverse ++ a.back) := by
    rw [a.lexed, a.middle_tokens]
    simp
  have hmem : ∀ t ∈ a.trail.reverse ++ a.back, t ∈ lex css := by
    intro t ht
    rw [hlex]
    exact List.mem_append_right _ ht
  have hafter := lex_suffix hlex
  cases htrail : a.trail.reverse with
  | nil =>
    rw [htrail] at hafter
    rcases a.ends with hback | ⟨-, t, rest, hback, ht⟩
    · rw [hback]
      exact Text.starts_off_nil _
    · rw [hback, List.nil_append] at hafter
      simp only [Token.endsItem, Bool.or_eq_true, beq_iff_eq] at ht
      rw [hback, List.nil_append, Token.text_of_cons]
      rcases ht with hk | hk
      · rw [lex_mark hafter (by rw [hk]; rfl)]
        exact Text.starts_off_cons _ rfl
      · rw [lex_mark hafter (by rw [hk]; rfl)]
        exact Text.starts_off_cons _ rfl
  | cons t trail =>
    have ht : t ∈ lex css := hmem t (by simp [htrail])
    rw [List.cons_append, Token.text_of_cons]
    rcases trivia_cases (a.trail_trivia t (List.mem_reverse.mp (by simp [htrail]))) with hk | hk
    · obtain ⟨c, u, hc⟩ := List.exists_cons_of_ne_nil (text_ne_nil_of_mem_lex css t ht)
      have hspace := space_text ht hk
      rw [hc] at hspace ⊢
      simp only [List.all_cons, Bool.and_eq_true] at hspace
      exact Text.starts_off_cons _ (extends_of_space hspace.1)
    · obtain ⟨more, hmore⟩ := comment_text ht hk
      rw [hmore]
      exact Text.starts_off_cons _ rfl

/-- If no token of it is disguised, the blanks of a value without slashes are white
space. -/
theorem blanks_are_space (h : ∀ t ∈ valueTokens css p, t.isTrivia = false → t.Undisguised)
    (hslash : '/' ∉ Token.textOf a.body.reverse) :
    ∀ c ∈ Token.textOf a.body.reverse, isBlank c = true → isSpace c = true := by
  intro c hc hblank
  obtain ⟨after, -, hvalue⟩ := a.value_tokens
  obtain ⟨t, ht, hct⟩ := List.mem_flatMap.mp hc
  have hmem : t ∈ lex css := by
    rw [a.lexed, a.middle_tokens]
    simp [List.mem_reverse.mp ht]
  cases htriv : t.isTrivia with
  | false => exact h t (by rw [hvalue]; simp [List.mem_reverse.mp ht]) htriv c hct hblank
  | true =>
    rcases trivia_cases htriv with hk | hk
    · exact List.all_eq_true.mp (space_text hmem hk) c hct
    · obtain ⟨more, hmore⟩ := comment_text hmem hk
      exact absurd (List.mem_flatMap.mpr ⟨t, ht, by simp [hmore]⟩) hslash

theorem solid_body (hplain : Fallback.IsPlainValue d.value) {ts : List Token}
    (hsplits : ∀ {rest : Text}, rest.StartsOff extendsName → Splits d.value ts rest)
    (h : ∀ t ∈ valueTokens css p, t.isTrivia = false → t.Undisguised) : ∃ us,
    (us = [] ∨ ∃ word : Text, word.sameIgnoringCase "important".toList = true ∧
      us = [⟨.delim, ['!']⟩, ⟨.ident, word⟩]) ∧
    Token.solid a.body.reverse = Token.solid ts ++ us := by
  obtain ⟨hletters, ⟨first, more, hfirst, halpha⟩, -⟩ := Fallback.plain_value_letters hplain
  have hnot : ∀ c, c.isAlpha = false → c ≠ ' ' → c ∉ d.value := by
    intro c hc hs hmem
    rcases hletters c hmem with hl | hl
    · simp [hc] at hl
    · exact hs hl
  obtain ⟨before, behind, hbefore, hbehind, hraw⟩ :=
    Importance.split_shape a.split_body (hnot '!' (by decide) (by decide))
  have hslash : '/' ∉ Token.textOf a.body.reverse := by
    have hfront : '/' ∉ before := fun hmem => by cases List.all_eq_true.mp hbefore _ hmem
    have hback := hbehind.not_mem (c := '/') (by decide) (by decide) (by decide)
    rw [hraw]
    simpa using ⟨hfront, hnot '/' (by decide) (by decide), hback⟩
  have hspace := a.blanks_are_space h hslash
  rw [hraw] at hspace
  have hleading : before.all isSpace = true := by
    rw [List.all_eq_true] at hbefore ⊢
    exact fun c hc => hspace c (by simp [hc]) (hbefore c hc)
  obtain ⟨mark, sp, us, rfl, hsp, hmark, hsplit⟩ := splits_follows hbehind fun c hc hb =>
    hspace c (List.mem_append_right _ (List.mem_append_right _ hc)) hb
  obtain ⟨hus, hoff⟩ := hsplit a.value_ends
  have hstart : (d.value ++ (mark ++ (sp ++ Token.textOf (a.trail.reverse ++ a.back)))).StartsOff
      isSpace := by
    rw [hfirst]
    exact Text.starts_off_cons _ (space_of_alpha halpha)
  have hall : Splits (before ++ (d.value ++ mark)) (spaceTokens before ++ (ts ++ us))
      (sp ++ Token.textOf (a.trail.reverse ++ a.back)) := by
    apply (Splits.spaces hleading ?_).append ((hsplits ?_).append hus)
    · rwa [List.append_assoc]
    · exact hoff
  have hlex : lex css = (a.front ++ a.name :: a.separator.reverse) ++
      (a.body.reverse ++ (a.trail.reverse ++ a.back)) := by
    rw [a.lexed, a.middle_tokens]
    simp
  refine ⟨Token.solid us, hmark, ?_⟩
  have := solid_of_prefix hall hsp (lex_suffix hlex) (by rw [hraw]; simp)
  rwa [Token.solid_append, solid_spaces, List.nil_append, Token.solid_append] at this

/-- Undisguised tokens of a declaration with fallbacks are those of a keyword or a pair. -/
theorem genuine_of_undisguised {o : Options} (hvalues : Fallback.values o d ≠ [])
    (h : ∀ t ∈ valueTokens css p, t.isTrivia = false → t.Undisguised) :
    Token.isGenuine d.property (Token.withoutMark (Token.solid (valueTokens css p))) = true := by
  obtain ⟨hplain, ts, hdelim, hgenuine, hsplits⟩ := Fallback.splits_trigger hvalues
  obtain ⟨us, hmark, hbody⟩ := a.solid_body hplain hsplits h
  obtain ⟨after, hafter, hvalue⟩ := a.value_tokens
  have htrail := Token.solid_trivia fun t ht => a.trail_trivia t (List.mem_reverse.mp ht)
  rw [hvalue, Token.solid_append, Token.solid_trivia hafter, List.nil_append, Token.solid_append,
    htrail, List.append_nil, hbody]
  rcases hmark with rfl | ⟨word, hword, rfl⟩
  · have hwords : ∀ t ∈ Token.solid ts, t.kind ≠ .delim := fun t ht =>
      hdelim t (List.mem_filter.mp ht).1
    rw [List.append_nil, Token.without_mark_plain hwords]
    exact hgenuine
  · rw [Token.without_mark_marked _ hword]
    exact hgenuine

end Anchor

namespace Stylesheet

/-- A fallback is for a keyword, or for a pair, that stands as such in the source, if and
only if no token of the value is disguised by a blank. -/
theorem trigger_genuine_iff {css : Text} {s : Stylesheet} (hs : parse css = .ok s) {o : Options}
    {r : Rule} (hr : r ∈ (s.sweep o).1.rules) {f d : Declaration} {p : Nat}
    (h : [f, d] <:+: r.declarations) (hf : f.place = none) (hd : d.place = some p) :
    Token.isGenuine d.property (Token.withoutMark (Token.solid (valueTokens css p))) = true ↔
      ∀ t ∈ valueTokens css p, t.isTrivia = false → t.Undisguised := by
  rw [sweep_sheet] at hr
  obtain ⟨r₀, hr₀, rfl⟩ := List.mem_map.mp hr
  have hplaced : ∀ e ∈ r₀.declarations, e.place ≠ none := fun e he =>
    Option.isSome_iff_ne_none.mp (placed_parse hs e (List.mem_flatMap.mpr ⟨r₀, hr₀, he⟩))
  obtain ⟨hmem, hvalues⟩ := Fallback.values_of_adjacent hplaced h hf (by simp [hd])
  obtain ⟨a⟩ := anchored hs (List.mem_flatMap.mpr ⟨r₀, hr₀, hmem⟩) hd
  exact ⟨Token.undisguised_of_genuine, a.genuine_of_undisguised hvalues⟩

/-- The keyword of a source with white space and a comment behind it. -/
theorem trigger_genuine_keyword :
    parse "a\x7boverflow:clip /**/\x7d".toList = .ok ⟨"a\x7boverflow:clip /**/\x7d".toList,
        [⟨['a'], [⟨"overflow".toList, "clip".toList, false, [], [':'], some 2⟩], 20⟩]⟩ ∧
      Token.isGenuine "overflow".toList (Token.withoutMark (Token.solid
        (valueTokens "a\x7boverflow:clip /**/\x7d".toList 2))) = true := by
  have hparse : parse "a\x7boverflow:clip /**/\x7d".toList =
      .ok ⟨"a\x7boverflow:clip /**/\x7d".toList,
        [⟨['a'], [⟨"overflow".toList, "clip".toList, false, [], [':'], some 2⟩], 20⟩]⟩ := rfl
  refine ⟨hparse, (trigger_genuine_iff hparse (o := .all) (f := ⟨"overflow".toList,
    "hidden".toList, false, [], [':'], none⟩) (d := ⟨"overflow".toList, "clip".toList, false, [], [':'],
      some 2⟩) (List.mem_singleton_self _) (List.infix_refl _) rfl rfl).mpr ?_⟩
  decide

/-- A no-break space belongs to the name in front of it, which is no keyword, but trimming
takes it away. -/
theorem trigger_disguised : ∃ s, parse "a\x7boverflow:clip\u00a0\x7d".toList = .ok s ∧
    ∃ r ∈ (s.sweep .all).1.rules, ∃ f d, [f, d] <:+: r.declarations ∧ f.place = none ∧
      d.place = some 2 ∧ Token.isGenuine d.property (Token.withoutMark (Token.solid
        (valueTokens "a\x7boverflow:clip\u00a0\x7d".toList 2))) = false := by
  refine ⟨⟨"a\x7boverflow:clip\u00a0\x7d".toList,
    [⟨['a'], [⟨"overflow".toList, "clip".toList, false, [], [':'], some 2⟩], 17⟩]⟩, rfl, _,
    List.mem_singleton_self _, ⟨"overflow".toList, "hidden".toList, false, [], [':'], none⟩,
    ⟨"overflow".toList, "clip".toList, false, [], [':'], some 2⟩, List.infix_refl _, rfl, rfl, ?_⟩
  decide

end Stylesheet
end CssFallback
