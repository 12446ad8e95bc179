import CssFallback.Proofs.Declaration.Marked
import CssFallback.Proofs.Layout.Tree
import CssFallback.Proofs.Stylesheet.Steps

/-!
# Pieces of a declaration

What the pieces of a declaration are split into: gaps into white space, comments and
semicolons, and a value, with its mark of importance, into tokens that stand as a value.
-/

set_option autoImplicit false

namespace CssFallback

/-! ## Calm tokens -/

theorem Token.nesting_calm {t : Token} (ht : t.kind.isCalm = true) (k : Nat) :
    Nesting.step (List.replicate k .paren) t = List.replicate (t.kind.depth k) .paren := by
  obtain ⟨kind, text⟩ := t
  cases kind with
  | opening b => cases b <;> first | rfl | cases ht
  | closing b => cases b <;> cases k <;> rfl
  | _ => rfl

theorem Token.opens_calm {t : Token} (ht : t.kind.isCalm = true) :
    t.opens?.toList = List.replicate (t.kind.depth 0) .paren := by
  obtain ⟨kind, text⟩ := t
  cases kind with
  | opening b => cases b <;> first | rfl | cases ht
  | closing b => cases b <;> rfl
  | _ => rfl

theorem Token.kind_ne_of_calm {t : Token} {kind : Token.Kind} (ht : t.kind.isCalm = true)
    (hk : kind.isCalm = false) : t.kind ≠ kind := by
  rintro rfl
  simp [ht] at hk

theorem stays_calm {k : Nat} {ts : List Token} (hk : ∀ t ∈ ts, t.kind.isCalm = true)
    (hd : Token.depthAfter k ts = 0) : Stays (List.replicate k .paren) ts := by
  induction ts generalizing k with
  | nil =>
    obtain rfl : k = 0 := hd
    rfl
  | cons t ts ih =>
    have ht := hk t (by simp)
    have hrest : Stays (List.replicate (t.kind.depth k) .paren) ts :=
      ih (fun x hx => hk x (by simp [hx])) hd
    cases k with
    | zero =>
      rw [← Token.opens_calm ht] at hrest
      exact ⟨⟨Token.kind_ne_of_calm ht rfl, Token.kind_ne_of_calm ht rfl,
        Token.kind_ne_of_calm ht rfl⟩, hrest⟩
    | succ k =>
      rw [← Token.nesting_calm ht] at hrest
      exact hrest

theorem calm_blank {c : Char} (h : isCalm c = true) (hs : c ≠ ' ') : isBlank c = false := by
  rcases calm_cases h with h | h | h
  · exact blank_of_alpha h
  · have hd := digit_cases h
    simp [isBlank, blankRanges]
    omega
  · rcases h with rfl | rfl | rfl | rfl | rfl | rfl | rfl | rfl | rfl | rfl | rfl <;>
      first | rfl | exact absurd rfl hs

theorem solid_calm {u : Text} (hu : u.all isCalm = true) (hne : u ≠ []) (hf : u.head? ≠ some ' ')
    (hl : u.getLast? ≠ some ' ') : u.Solid := by
  rw [List.all_eq_true] at hu
  have hc : ∀ c ∈ u, c ≠ ' ' → isBlank c = false := fun c hc hs => calm_blank (hu c hc) hs
  constructor
  · obtain ⟨c, v, rfl⟩ := List.exists_cons_of_ne_nil hne
    exact ⟨c, v, rfl, hc c (by simp) (by simpa using hf)⟩
  · have hlast := List.getLast?_eq_some_getLast hne
    refine ⟨u.dropLast, u.getLast hne, (List.dropLast_concat_getLast hne).symm,
      hc _ (List.getLast_mem hne) ?_⟩
    rintro h
    exact hl (by rw [hlast, h])

namespace Layout

/-! ## Gaps -/

/-- White space and comments, and, where they may stand, semicolons. -/
def Fills (spare : Bool) (ts : List Token) : Prop :=
  ∀ t ∈ ts, t.isTrivia = true ∨ spare = true ∧ t.kind = .semicolon

theorem fills_cons {spare : Bool} {t : Token} {ts : List Token}
    (ht : t.isTrivia = true ∨ spare = true ∧ t.kind = .semicolon) (h : Fills spare ts) :
    Fills spare (t :: ts) := by
  intro x hx
  rcases List.mem_cons.mp hx with rfl | hx
  · exact ht
  · exact h x hx

theorem trivia_of_fills {ts : List Token} (h : Fills false ts) : ∀ t ∈ ts, t.isTrivia = true :=
  fun t ht => (h t ht).resolve_right (by simp)

namespace Gap
variable {spare : Bool} {g : Text}

theorem starts_off (h : Gap spare g) {p : Char → Bool} (hs : ∀ c, isSpace c = true → p c = false)
    (hc : p '/' = false) (hsemi : p ';' = false) {rest : Text} (hr : rest.StartsOff p) :
    (g ++ rest).StartsOff p := by
  cases h with
  | nil => exact hr
  | space hc hg => exact Text.starts_off_cons _ (hs _ hc)
  | comment hb hg => exact Text.starts_off_cons _ hc
  | semicolon _ hg => exact Text.starts_off_cons _ hsemi

/-- White space may go on in the next character, so that a gap is split together with
the white space in front of it. -/
theorem split_behind (h : Gap spare g) {rest : Text} (hr : rest.StartsOff isSpace) :
    (∃ ts, Splits g ts rest ∧ Fills spare ts) ∧
      ∀ read, ∃ ts, Lexeme.space.tokens read (g ++ rest) = ts ++ lex rest ∧ Fills spare ts := by
  -- whatever ends white space starts a token of its own
  have hstop : ∀ {u : Text} {ts : List Token} (_ : (u ++ rest).StartsOff isSpace),
      Splits u ts rest → Fills spare ts → ∀ read,
        ∃ ts, Lexeme.space.tokens read (u ++ rest) = ts ++ lex rest ∧ Fills spare ts := by
    intro u ts hu hsplit hfill read
    have hend := Lexeme.tokens_space [] read (u ++ rest) rfl hu
    rw [List.nil_append, List.append_nil] at hend
    exact ⟨⟨.space, read.reverse⟩ :: ts, by rw [hend, hsplit, List.cons_append],
      fills_cons (.inl rfl) hfill⟩
  induction h with
  | nil =>
    have hfill : Fills spare [] := by simp [Fills]
    exact ⟨⟨[], Splits.nil rest, hfill⟩, hstop hr (Splits.nil rest) hfill⟩
  | @space c g hc hg ih =>
    refine ⟨?_, fun read => ?_⟩
    · obtain ⟨ts, hts, hfill⟩ := ih.2 [c]
      refine ⟨ts, ?_, hfill⟩
      rw [Splits, List.cons_append, lex, Lexeme.start, if_pos hc, hts]
    · obtain ⟨ts, hts, hfill⟩ := ih.2 (c :: read)
      refine ⟨ts, ?_, hfill⟩
      rw [List.cons_append, Lexeme.tokens_step .space (by simp [Lexeme.step, hc]), hts]
  | @comment body g hb hg ih =>
    obtain ⟨ts, hts, hfill⟩ := ih.1
    have hsplit := (Splits.comment (g ++ rest) hb).append hts
    have hfill' : Fills spare ([⟨.comment, commentText body⟩] ++ ts) := fills_cons (.inl rfl) hfill
    exact ⟨⟨_, hsplit, hfill'⟩, hstop (Text.starts_off_cons _ rfl) hsplit hfill'⟩
  | @semicolon g hs hg ih =>
    obtain ⟨ts, hts, hfill⟩ := ih.1
    have hmark : Splits [';'] [⟨.semicolon, [';']⟩] (g ++ rest) := Splits.of_start rfl
    have hfill' : Fills spare ([⟨.semicolon, [';']⟩] ++ ts) := fills_cons (.inr ⟨hs, rfl⟩) hfill
    exact ⟨⟨_, hmark.append hts, hfill'⟩, hstop (Text.starts_off_cons _ rfl) (hmark.append hts) hfill'⟩

theorem split (h : Gap spare g) {rest : Text} (hr : rest.StartsOff isSpace) :
    ∃ ts, Splits g ts rest ∧ Fills spare ts := (h.split_behind hr).1

end Gap

/-! ## Values -/

theorem calm_of_value {v : Text} (h : isValue v = true) :
    v.all isCalm = true ∧ v ≠ [] ∧ v.head? ≠ some ' ' ∧ v.getLast? ≠ some ' ' ∧ v.closes 0 = true := by
  simp only [isValue, Bool.and_eq_true, bne_iff_ne] at h
  obtain ⟨⟨⟨⟨hne, hf⟩, hl⟩, hd⟩, hall⟩ := h
  refine ⟨?_, hne, hf, hl, hd⟩
  rw [List.all_eq_true] at *
  intro c hc
  have := hall c hc
  simp only [isCalm, Bool.or_eq_true] at this ⊢
  apply this.imp_right
  intro h
  have : c = '-' ∨ c = ',' ∨ c = ' ' ∨ c = '(' ∨ c = ')' := by simpa using h
  rcases this with rfl | rfl | rfl | rfl | rfl <;> decide

theorem split_value {v rest : Text} (h : isValue v = true) (hr : rest.StartsOff goesOn) :
    ∃ ts, Splits v ts rest ∧ StandsAsValue ts := by
  obtain ⟨hcalm, hne, hf, hl, hd⟩ := calm_of_value h
  obtain ⟨ts, hts, hk, hdepth⟩ := splits_calm hcalm hd hl hr
  obtain ⟨c, u, rfl⟩ := List.exists_cons_of_ne_nil hne
  have hc : isCalm c = true := by
    simp only [List.all_cons, Bool.and_eq_true] at hcalm
    exact hcalm.1
  refine ⟨ts, hts, stays_calm hk hdepth, ?_, ?_, ?_⟩
  · rintro rfl
    have := hts.text_of
    cases this
  · exact hts.head_solid (space_off_calm hc (by simpa using hf)) (ne_of_class hc rfl)
  · refine hts.last_solid (fun t ht => Token.kind_ne_of_calm (hk t ht) rfl) fun d hd => ?_
    apply space_off_calm (List.all_eq_true.mp hcalm d (List.mem_of_getLast? hd))
    rintro rfl
    exact hl hd

/-! ## Marks of importance -/

namespace PrintsMark
variable {important : Bool} {mark : Text}

theorem split (h : PrintsMark important mark) {rest : Text} (hr : rest.StartsOff extendsName) :
    ∃ ts, Splits mark ts rest ∧ Stays [] ts ∧ ∀ t, ts.getLast? = some t → t.isTrivia = false := by
  cases h with
  | plain => exact ⟨[], Splits.nil rest, rfl, by simp⟩
  | @important before after word hb ha hw =>
    obtain ⟨hne, hletters⟩ := Importance.letters_of_same hw
    obtain ⟨c, name, rfl⟩ := List.exists_cons_of_ne_nil hne
    have hc : c.isAlpha = true := hletters c (by simp)
    have hname : name.all isNameCharacter = true := by
      rw [List.all_eq_true]
      intro d hd
      simp [isNameCharacter, isNameStart, hletters d (by simp [hd])]
    have hword := (Splits.spaces ha (Text.starts_off_cons _ (space_of_alpha hc))).append
      (Splits.name hc hname hr)
    have hbang : Splits ['!'] [⟨.delim, ['!']⟩] (after ++ (c :: name) ++ rest) := Splits.of_start rfl
    have hsplit := (Splits.spaces hb (Text.starts_off_cons _ rfl)).append (hbang.append hword)
    have hspaces : ∀ sp, Stays [] (spaceTokens sp) := by
      intro sp
      by_cases h : sp = [] <;> simp [spaceTokens, h, Stays, Token.opens?]
    have hdelim : Stays [] [(⟨.delim, ['!']⟩ : Token)] := ⟨by simp, rfl⟩
    have hident : Stays [] [(⟨.ident, c :: name⟩ : Token)] := ⟨by simp, rfl⟩
    refine ⟨_, hsplit, stays_append (hspaces before) (stays_append hdelim
      (stays_append (hspaces after) hident)), ?_⟩
    intro t ht
    rw [← List.append_assoc, ← List.append_assoc, List.getLast?_concat] at ht
    obtain rfl := Option.some.inj ht
    rfl

theorem starts_off (h : PrintsMark important mark) {rest : Text} (hr : rest.StartsOff goesOn) :
    (mark ++ rest).StartsOff goesOn := by
  cases h with
  | plain => exact hr
  | @important before after word hb ha hw =>
    cases before with
    | nil => exact Text.starts_off_cons _ rfl
    | cons c before =>
      simp only [List.all_cons, Bool.and_eq_true] at hb
      exact Text.starts_off_cons _ (by simp [goesOn, isStop, hb.1])

theorem importance (h : PrintsMark important mark) {value : Text} (hs : value.Solid)
    (hm : '!' ∉ value) : Importance.split (value ++ mark) = (value, important) := by
  cases h with
  | plain => rw [List.append_nil, Importance.split_plain hs hm]
  | @important before after word hb ha hw =>
    rw [← List.append_assoc]
    exact Importance.split_important hs (blank_of_all_space hb) (blank_of_all_space ha)
      (Importance.word_solid hw) (Importance.mark_not_mem (blank_of_all_space ha) hw) hw

end PrintsMark

theorem split_marked {value mark : Text} {important : Bool} (hv : isValue value = true)
    (hm : PrintsMark important mark) {rest : Text} (hr : rest.StartsOff goesOn) :
    ∃ ts, Splits (value ++ mark) ts rest ∧ StandsAsValue ts ∧
      Importance.split (Token.textOf ts) = (value, important) := by
  obtain ⟨hcalm, hne, hf, hl, -⟩ := calm_of_value hv
  obtain ⟨vs, hvs, hstands⟩ := split_value hv (hm.starts_off hr)
  obtain ⟨ms, hms, hstays, hlast⟩ := hm.split (name_ends hr)
  have hsplit := hvs.append hms
  have hmark : '!' ∉ value := fun h => by cases List.all_eq_true.mp hcalm _ h
  refine ⟨vs ++ ms, hsplit, ⟨stays_append hstands.stays hstays, by simp [hstands.ne_nil], ?_, ?_⟩, ?_⟩
  · intro t ht
    obtain ⟨v, more, rfl⟩ := List.exists_cons_of_ne_nil hstands.ne_nil
    exact hstands.head t ht
  · intro t ht
    by_cases h : ms = []
    · rw [h, List.append_nil] at ht
      exact hstands.last t ht
    · rw [List.getLast?_append, List.getLast?_eq_some_getLast h, Option.some_or] at ht
      exact hlast t (by rw [List.getLast?_eq_some_getLast h, ht])
  · rw [hsplit.text_of]
    exact hm.importance (solid_calm hcalm hne hf hl) hmark

/-! ## Declarations -/

theorem name_characters {name : Text} (h : isName name = true) : ∃ c more, name = c :: more ∧
    c.isAlpha = true ∧ more.all isNameCharacter = true ∧ ∀ d ∈ name, d.isAlpha = true ∨ d = '-' := by
  simp only [isName, Bool.and_eq_true] at h
  obtain ⟨hf, hall⟩ := h
  have hletters : ∀ d ∈ name, d.isAlpha = true ∨ d = '-' := by
    simpa using hall
  cases name with
  | nil => simp at hf
  | cons c more =>
    refine ⟨c, more, rfl, by simpa using hf, ?_, hletters⟩
    rw [List.all_eq_true]
    intro d hd
    rcases hletters d (by simp [hd]) with hd | rfl
    · simp [isNameCharacter, isNameStart, hd]
    · decide

theorem entry_off_space {e : Entry} (he : properEntry e = true) {t : Text} (h : PrintsEntry e t)
    (rest : Text) : (t ++ rest).StartsOff isSpace := by
  simp only [properEntry, Bool.and_eq_true] at he
  obtain ⟨a, name, hproperty, ha, -⟩ := name_characters he.1
  cases h with
  | intro hb hafter hm htrail =>
    rw [hproperty]
    exact Text.starts_off_cons _ (space_of_alpha ha)

theorem split_entry {e : Entry} (he : properEntry e = true) {t : Text} (h : PrintsEntry e t)
    {c : Char} (hc : isCut c = true) (rest : Text) : ∃ before after value trail,
      Splits t (⟨.ident, e.property⟩ :: (before ++ ⟨.colon, [':']⟩ :: (after ++ (value ++ trail))))
        (c :: rest) ∧
      (∀ x ∈ before, x.isTrivia = true) ∧ (∀ x ∈ after, x.isTrivia = true) ∧
      (∀ x ∈ trail, x.isTrivia = true) ∧ StandsAsValue value ∧
      Importance.split (Token.textOf value) = (e.value, e.important) := by
  simp only [properEntry, Bool.and_eq_true] at he
  obtain ⟨a, name, hproperty, ha, hname, -⟩ := name_characters he.1
  obtain ⟨hcalm, hne, hf, -⟩ := calm_of_value he.2
  have hstop : goesOn c = false := by rcases cut_cases hc with rfl | rfl | rfl <;> rfl
  have hspace : isSpace c = false := by rcases cut_cases hc with rfl | rfl | rfl <;> rfl
  cases h with
  | @intro before after mark trail hb hafter hm htrail =>
    -- from the end of the declaration to its name
    obtain ⟨tts, hts, htfill⟩ := htrail.split (Text.starts_off_cons rest hspace)
    obtain ⟨vs, hvs, hstands, himportance⟩ := split_marked he.2 hm (htrail.starts_off
      (fun c hc => by simp [goesOn, isStop, hc]) rfl rfl (Text.starts_off_cons rest hstop))
    have hvalue := hvs.append hts
    have hoff : (e.value ++ mark ++ trail ++ c :: rest).StartsOff isSpace := by
      obtain ⟨d, v, hd⟩ := List.exists_cons_of_ne_nil hne
      rw [hd] at hcalm hf ⊢
      exact Text.starts_off_cons _
        (space_off_calm (List.all_eq_true.mp hcalm d (by simp)) (by simpa using hf))
    obtain ⟨ats, hats, hafill⟩ := hafter.split hoff
    have hcolon : Splits [':'] [⟨.colon, [':']⟩] (after ++ (e.value ++ mark ++ trail) ++ c :: rest) :=
      Splits.of_start rfl
    obtain ⟨bts, hbts, hbfill⟩ := hb.split
      (Text.starts_off_cons (after ++ (e.value ++ mark ++ trail) ++ c :: rest) (c := ':') rfl)
    have hnamed : Splits (a :: name) [⟨.ident, a :: name⟩]
        (before ++ ([':'] ++ (after ++ (e.value ++ mark ++ trail))) ++ c :: rest) := by
      refine Splits.name ha hname ?_
      rw [List.append_assoc]
      exact hb.starts_off (fun c hc => extends_of_stop (by simp [isStop, hc])) rfl rfl
        (Text.starts_off_cons _ rfl)
    have hall := hnamed.append (hbts.append (hcolon.append (hats.append hvalue)))
    refine ⟨bts, ats, vs, tts, ?_, trivia_of_fills hbfill, trivia_of_fills hafill,
      trivia_of_fills htfill, hstands, himportance⟩
    simpa [hproperty, List.append_assoc] using hall

end Layout
end CssFallback
