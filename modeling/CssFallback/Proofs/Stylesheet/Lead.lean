import CssFallback.Proofs.Declaration.Importance
import CssFallback.Proofs.Fallback.Words
import CssFallback.Proofs.Stylesheet.Insertion
import CssFallback.Proofs.Stylesheet.Steps

/-!
# The text of an added declaration

The text that puts a declaration in front of another one is split into the tokens of a
declaration and of the white space behind it, and it is read as that declaration.
-/

set_option autoImplicit false

namespace CssFallback

theorem extends_of_space {c : Char} (h : isSpace c = true) : extendsName c = false := by
  simp only [isSpace, isNewline, Bool.or_eq_true, beq_iff_eq] at h
  rcases h with (rfl | rfl) | (rfl | rfl) | rfl <;> decide

theorem Text.starts_off_spaces {sp : Text} (h : sp.all isSpace = true) {rest : Text}
    (hr : rest.StartsOff extendsName) : (sp ++ rest).StartsOff extendsName := by
  cases sp with
  | nil => exact hr
  | cons c sp =>
    simp only [List.all_cons, Bool.and_eq_true] at h
    exact Text.starts_off_cons _ (extends_of_space h.1)

theorem text_of_spaces (sp : Text) : Token.textOf (spaceTokens sp) = sp := by
  by_cases h : sp = [] <;> simp [spaceTokens, h, Token.textOf]

theorem reverse_spaces (sp : Text) : (spaceTokens sp).reverse = spaceTokens sp := by
  by_cases h : sp = [] <;> simp [spaceTokens, h]

theorem name_of_property {property : Text} (h : (Property.ofName? property).isSome = true) :
    IsName property := by
  obtain ⟨p, hp⟩ := Option.isSome_iff_exists.mp h
  rw [Property.of_name_iff] at hp
  subst hp
  cases p <;> exact ⟨by decide, by decide⟩

/-- A text that is split, in front of a semicolon, into tokens that stand as a value, and
that says a value and its importance. -/
structure ReadsAs (raw value : Text) (important : Bool) (ts : List Token) : Prop where
  splits : Splits raw ts [';']
  stands : StandsAsValue ts
  off_space : raw ≠ [] ∧ raw.StartsOff isSpace
  importance : Importance.split raw = (value, important)

/-- A text that is read as a value as it stands. -/
def ReadsBack (value : Text) : Prop := ∃ ts, ReadsAs value value false ts

namespace Fallback
open ValuePart

theorem plain_value_letters {value : Text} (h : IsPlainValue value) :
    (∀ c ∈ value, c.isAlpha = true ∨ c = ' ') ∧ (∃ c r, value = c :: r ∧ c.isAlpha = true) ∧
      ∃ c r, value = r ++ [c] ∧ c.isAlpha = true := by
  have hword : ∀ w, isPlainWord w = true → (∀ c ∈ w, c.isAlpha = true) ∧ w ≠ [] := by
    intro w hw
    simp only [isPlainWord, Bool.and_eq_true, decide_eq_true_eq, List.all_eq_true] at hw
    exact ⟨hw.2, by rintro rfl; simp at hw⟩
  have hfirst : ∀ w, isPlainWord w = true → ∃ c r, w = c :: r ∧ c.isAlpha = true := by
    intro w hw
    obtain ⟨c, r, rfl⟩ := List.exists_cons_of_ne_nil (hword w hw).2
    exact ⟨c, r, rfl, (hword _ hw).1 c (by simp)⟩
  have hlast : ∀ w, isPlainWord w = true → ∃ c r, w = r ++ [c] ∧ c.isAlpha = true := by
    intro w hw
    refine ⟨w.getLast (hword w hw).2, w.dropLast, (List.dropLast_concat_getLast _).symm, ?_⟩
    exact (hword w hw).1 _ (List.getLast_mem _)
  rcases h with h | ⟨a, b, ha, hb, rfl⟩
  · exact ⟨fun c hc => .inl ((hword value h).1 c hc), hfirst value h, hlast value h⟩
  · refine ⟨fun c hc => ?_, ?_, ?_⟩
    · simp only [pairText, List.mem_append, List.mem_cons] at hc
      rcases hc with hc | rfl | hc
      · exact .inl ((hword a ha).1 c hc)
      · exact .inr rfl
      · exact .inl ((hword b hb).1 c hc)
    · obtain ⟨c, r, rfl, hc⟩ := hfirst a ha
      exact ⟨c, r ++ ' ' :: b, rfl, hc⟩
    · obtain ⟨c, r, rfl, hc⟩ := hlast b hb
      exact ⟨c, a ++ ' ' :: r, by simp [pairText], hc⟩

theorem split_plain_value {value : Text} (h : IsPlainValue value) :
    Importance.split value = (value, false) := by
  obtain ⟨hall, ⟨c, r, hc, hcalpha⟩, d, q, hd, hdalpha⟩ := plain_value_letters h
  refine Importance.split_plain ⟨⟨c, r, hc, blank_of_alpha hcalpha⟩, q, d, hd, blank_of_alpha hdalpha⟩ ?_
  intro hm
  rcases hall _ hm with hm | hm <;> cases hm

theorem plain_value_reads {value : Text} (h : IsPlainValue value) : ReadsBack value := by
  have hoff : value ≠ [] ∧ value.StartsOff isSpace := by
    obtain ⟨-, ⟨c, r, rfl, hc⟩, -⟩ := plain_value_letters h
    exact ⟨by simp, Text.starts_off_cons _ (space_of_alpha hc)⟩
  have hsplit := split_plain_value h
  have hend : Text.StartsOff extendsName [';'] := Text.starts_off_cons _ rfl
  rcases h with h | ⟨a, b, ha, hb, rfl⟩
  · refine ⟨[⟨.ident, value⟩], splits_plain_word h hend, ⟨?_, by simp, ?_, ?_⟩,
      hoff, hsplit⟩
    · simp [Stays, Token.opens?]
    · simp [Token.isTrivia]
    · simp [Token.isTrivia]
  · refine ⟨_, splits_pair ha hb hend, ⟨?_, by simp, ?_, ?_⟩, hoff, hsplit⟩
    · simp [Stays, Token.opens?]
    · simp [Token.isTrivia]
    · simp [Token.isTrivia]

end Fallback

/-! ## The tokens -/

def leadTokens (property head tail : Text) (value : List Token) (indent : Text) : List Token :=
  ⟨.ident, property⟩ :: (spaceTokens head ++ ⟨.colon, [':']⟩ :: (spaceTokens tail ++ value)) ++
    ⟨.semicolon, [';']⟩ :: spaceTokens indent

theorem splits_lead {property head tail raw value indent : Text} {important : Bool} (rest : Text)
    {ts : List Token} (hp : IsName property) (hh : head.all isSpace = true)
    (ht : tail.all isSpace = true) (hv : ReadsAs raw value important ts)
    (hi : indent.all isSpace = true) (hr : rest.StartsOff isSpace) :
    Splits (property ++ (head ++ ':' :: tail) ++ raw ++ ';' :: indent)
      (leadTokens property head tail ts indent) rest := by
  have hend : Splits (';' :: indent) (⟨.semicolon, [';']⟩ :: spaceTokens indent) rest :=
    (Splits.of_start rfl).append (Splits.spaces hi hr)
  have hvalue := (hv.splits.cut rfl (indent ++ rest)).append hend
  have hmark : ∀ u, Splits [':'] [⟨.colon, [':']⟩] u := fun u => Splits.of_start rfl
  have hcolon : Splits (':' :: (tail ++ (raw ++ ';' :: indent))) _ rest :=
    (hmark _).append ((Splits.spaces ht (by
      rw [List.append_assoc, Text.starts_off_append _ hv.off_space.1]
      exact hv.off_space.2)).append hvalue)
  have hafter := (Splits.spaces hh (Text.starts_off_cons _ rfl)).append hcolon
  have hgreater : (head ++ (':' :: (tail ++ (raw ++ ';' :: indent))) ++ rest).head? ≠ some '>' := by
    cases head with
    | nil => simp
    | cons c head =>
      simp only [List.all_cons, Bool.and_eq_true] at hh
      simpa using ne_of_class hh.1 rfl
  have hname := (hp.splits (by
    rw [List.append_assoc]
    exact Text.starts_off_spaces hh (Text.starts_off_cons _ rfl)) hgreater).append hafter
  simpa [leadTokens] using hname

theorem Reading.run_lead (position : Nat) (sheet : RuleList) (b : Block) (outer : List Frame)
    (hi : b.item = .none) (property head tail : Text) {raw value : Text} {important : Bool}
    {ts : List Token} (hv : ReadsAs raw value important ts) (indent : Text) :
    (atBlock position sheet b outer).run (leadTokens property head tail ts indent) =
      .ok (atBlock (position + Token.sizeOf (leadTokens property head tail ts indent)) sheet
        ⟨b.selector, b.declarations ++ [⟨property, value, important,
          (Token.textOf b.gap.reverse).trailingBlanks, head ++ ':' :: tail, some position⟩], b.inner,
          spaceTokens indent, .none⟩ outer) := by
  have hspace : ∀ sp, ∀ t ∈ spaceTokens sp, t.isTrivia = true := fun sp t ht =>
    trivia_of_mem_space_tokens ht
  have hdecl := run_declaration position sheet b outer hi ⟨.ident, property⟩ ⟨.colon, [':']⟩
    (spaceTokens head) (spaceTokens tail) ts [] rfl rfl (hspace head) (hspace tail) (by simp) hv.stands
  rw [List.append_nil, List.reverse_nil] at hdecl
  have hsemi : ∀ q (c : Block), (atBlock q sheet c outer).step ⟨.semicolon, [';']⟩ =
      .ok (atBlock (q + Text.byteSize [';']) sheet c.endItem outer) := fun q c =>
    step_stay _ _ _ _ (by simp) (by simp [Block.read])
  have hsays : Importance.split (Token.textOf ts) = (value, important) := by
    rw [hv.splits.text_of, hv.importance]
  rw [leadTokens, run_of_run _ hdecl, run, hsemi]
  simp only
  have hgap := Block.skip_gap (b.withItem (.value position ⟨.ident, property⟩
    ((spaceTokens tail).reverse ++ ⟨.colon, [':']⟩ :: (spaceTokens head).reverse) ts.reverse [])).endItem
    (spaceTokens indent) []
  simp only [Block.withItem, Block.withGap, Block.endItem] at hgap
  rw [run_trivia _ _ _ _ (hspace indent), Block.endItem]
  simp only [Block.withItem]
  rw [hgap]
  simp [Item.declaration?, reverse_spaces, text_of_spaces, Token.text_of_append, Token.text_of_cons,
    Token.size_append, Token.size_cons, Nat.add_assoc, hsays]

/-! ## Written declarations -/

/-- A declaration whose text is read back as the declaration. -/
structure Declaration.Written (d : Declaration) : Prop where
  name : IsName d.property
  separator : ∃ head tail : Text, head.all isSpace = true ∧ tail.all isSpace = true ∧
    d.separator = head ++ ':' :: tail
  indent : d.indent.all isSpace = true
  value : ∃ ts, ReadsAs (d.value ++ d.importance) d.value d.important ts

def Block.lead (b : Block) (position : Nat) (d : Declaration) : Block :=
  ⟨b.selector, b.declarations ++ [⟨d.property, d.value, d.important,
    (Token.textOf b.gap.reverse).trailingBlanks, d.separator, some position⟩], b.inner,
    spaceTokens d.indent, .none⟩

namespace Declaration.Written
variable {d : Declaration} (h : d.Written)
include h

theorem lead_off_space : d.leadText ≠ [] ∧ d.leadText.StartsOff isSpace := by
  obtain ⟨hne, hoff⟩ := h.name.starts_off_space
  refine ⟨by simp [leadText], ?_⟩
  simp only [leadText, List.append_assoc]
  exact (Text.starts_off_append _ hne).mpr hoff

theorem takes (position : Nat) (sheet : RuleList) (b : Block) (outer : List Frame)
    (hi : b.item = .none) {rest : Text} (hr : rest.StartsOff isSpace) :
    (Reading.atBlock position sheet b outer).Takes d.leadText rest
      (.atBlock (position + d.leadText.byteSize) sheet (b.lead position d) outer) := by
  obtain ⟨head, tail, hhead, htail, hsep⟩ := h.separator
  obtain ⟨ts, hts⟩ := h.value
  have hlead : d.leadText = d.property ++ (head ++ ':' :: tail) ++ (d.value ++ d.importance) ++
      ';' :: d.indent := by
    simp [leadText, hsep]
  have hsplits := splits_lead rest h.name hhead htail hts h.indent hr
  rw [← hlead] at hsplits
  have hrun := Reading.run_lead position sheet b outer hi d.property head tail hts d.indent
  rw [Token.sizeOf, hsplits.text_of, ← hsep] at hrun
  exact ⟨_, hsplits, hrun⟩

end Declaration.Written

/-! ## Several declarations -/

def Block.leads (b : Block) : (position : Nat) → Declarations → Block
  | _, [] => b
  | position, d :: rest => (b.lead position d).leads (position + d.leadText.byteSize) rest

namespace Declarations

def leadText (list : Declarations) : Text := list.flatMap Declaration.leadText

theorem leads_off_space {list : Declarations} (h : ∀ d ∈ list, d.Written) {rest : Text}
    (hr : rest.StartsOff isSpace) : Text.StartsOff isSpace (list.leadText ++ rest) := by
  cases list with
  | nil => exact hr
  | cons d list =>
    obtain ⟨hne, hoff⟩ := (h d (by simp)).lead_off_space
    rw [leadText, List.flatMap_cons, List.append_assoc]
    exact (Text.starts_off_append _ hne).mpr hoff

theorem takes_leads {list : Declarations} (h : ∀ d ∈ list, d.Written) (position : Nat)
    (sheet : RuleList) (b : Block) (outer : List Frame) (hi : b.item = .none) {rest : Text}
    (hr : rest.StartsOff isSpace) :
    (Reading.atBlock position sheet b outer).Takes list.leadText rest
      (.atBlock (position + list.leadText.byteSize) sheet (b.leads position list) outer) := by
  induction list generalizing position b with
  | nil => exact Reading.takes_nil _ rest
  | cons d list ih =>
    have hlist : ∀ e ∈ list, e.Written := fun e he => h e (by simp [he])
    have hfirst := (h d (by simp)).takes position sheet b outer hi (leads_off_space hlist hr)
    have hrest := ih hlist (position + d.leadText.byteSize) (b.lead position d) rfl
    have hall := hfirst.append hrest
    rwa [Nat.add_assoc, ← Text.byte_size_append] at hall

end Declarations

end CssFallback
