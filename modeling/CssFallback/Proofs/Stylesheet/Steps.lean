import CssFallback.Proofs.Token.Pieces
import CssFallback.Stylesheet.Reading

/-!
# Reading inside a block

What consecutive tokens do to the block on top of the open frames: white space and
comments, the tokens of a value, and a whole declaration.
-/

set_option autoImplicit false

namespace CssFallback

namespace Token

def sizeOf (ts : List Token) : Nat := (textOf ts).byteSize

theorem size_cons (t : Token) (ts : List Token) : sizeOf (t :: ts) = t.text.byteSize + sizeOf ts := by
  rw [sizeOf, textOf, List.flatMap_cons, Text.byte_size_append]
  rfl

theorem size_append (s t : List Token) : sizeOf (s ++ t) = sizeOf s + sizeOf t := by
  rw [sizeOf, text_of_append, Text.byte_size_append]
  rfl

theorem opens_trivia {t : Token} (h : t.isTrivia = true) : t.opens? = none := by
  simp only [isTrivia, Bool.or_eq_true, beq_iff_eq] at h
  rcases h with h | h <;> simp [opens?, h]

theorem kind_ne_of_trivia {t : Token} {k : Token.Kind} (h : t.isTrivia = true)
    (hk : k ≠ .space ∧ k ≠ .comment) : t.kind ≠ k := by
  rintro rfl
  simp [isTrivia, hk.1, hk.2] at h

def solid (ts : List Token) : List Token := ts.filter fun t => !t.isTrivia

theorem solid_append (s t : List Token) : solid (s ++ t) = solid s ++ solid t :=
  List.filter_append s t

theorem solid_trivia {ts : List Token} (h : ∀ t ∈ ts, t.isTrivia = true) : solid ts = [] := by
  simpa [solid] using h

theorem solid_concat (ts : List Token) {t : Token} (h : t.isTrivia = false) :
    solid (ts ++ [t]) = solid ts ++ [t] := by
  rw [solid_append]
  simp [solid, h]

theorem solid_concat_trivia (ts : List Token) {t : Token} (h : t.isTrivia = true) :
    solid (ts ++ [t]) = solid ts := by
  have hnone : solid [t] = [] := solid_trivia (by simpa using h)
  rw [solid_append, hnone, List.append_nil]

end Token

theorem Reading.run_of_run {r next : Reading} {ts : List Token} (us : List Token)
    (h : r.run ts = .ok next) : r.run (ts ++ us) = next.run us := by
  rw [run_append, h]
  rfl

/-- A run that ends without an error does so in two parts. -/
theorem Reading.run_parts {r final : Reading} {ts us : List Token} (h : r.run (ts ++ us) = .ok final) :
    ∃ middle, r.run ts = .ok middle ∧ middle.run us = .ok final := by
  cases hm : r.run ts with
  | error p => simp [run_append, hm, Except.bind] at h
  | ok middle => exact ⟨middle, rfl, by rwa [run_of_run us hm] at h⟩

namespace Block

def withItem (b : Block) (item : Item) : Block :=
  ⟨b.selector, b.declarations, b.inner, b.gap, item⟩

def withGap (b : Block) (gap : List Token) : Block :=
  ⟨b.selector, b.declarations, b.inner, gap, b.item⟩

def skip (b : Block) (t : Token) : Block :=
  match b.item with
  | .none => b.withGap (t :: b.gap)
  | item => b.withItem (item.push 0 t)

theorem read_trivia (b : Block) (position : Nat) {t : Token} (h : t.isTrivia = true) :
    b.read position t = .stay (b.skip t) [] := by
  have hs : t.kind ≠ .semicolon := Token.kind_ne_of_trivia h (by decide)
  have ho : b.opensRule t = false := by
    simp [opensRule, Token.kind_ne_of_trivia h (k := .opening .curly) (by decide)]
  rw [read, if_neg hs, ho]
  cases hi : b.item with
  | none => simp [h, skip, hi, withGap]
  | _ => simp [h, skip, hi, withItem, Item.push, Token.opens_trivia h]

end Block

namespace Reading

def atBlock (position : Nat) (sheet : RuleList) (b : Block) (outer : List Frame) : Reading :=
  ⟨position, [], sheet, .block b :: outer⟩

section
variable (position : Nat) (sheet : RuleList) (b : Block) (outer : List Frame)

theorem step_read {t : Token} (h : t.kind ≠ .closing .curly) :
    (atBlock position sheet b outer).step t =
      .ok ⟨position + t.text.byteSize, (b.read position t).nesting, sheet,
        (b.read position t).entered.toList ++ .block (b.read position t).state :: outer⟩ := by
  simp [step, atBlock, h, stepFrame, Frame.read, Step.map]

theorem step_stay {t : Token} {next : Block} (h : t.kind ≠ .closing .curly)
    (hr : b.read position t = .stay next []) :
    (atBlock position sheet b outer).step t =
      .ok (atBlock (position + t.text.byteSize) sheet next outer) := by
  rw [step_read position sheet b outer h, hr]
  rfl

theorem run_trivia {gap : List Token} (h : ∀ t ∈ gap, t.isTrivia = true) :
    (atBlock position sheet b outer).run gap =
      .ok (atBlock (position + Token.sizeOf gap) sheet (gap.foldl Block.skip b) outer) := by
  induction gap generalizing position b with
  | nil => rfl
  | cons t gap ih =>
    have ht := h t (by simp)
    rw [run, step_stay _ _ _ _ (Token.kind_ne_of_trivia ht (by decide)) (b.read_trivia _ ht)]
    simp only [ih _ _ fun x hx => h x (by simp [hx]), Token.size_cons, Nat.add_assoc,
      List.foldl_cons]

end
end Reading

/-! ## Trivia -/

namespace Block
variable (b : Block) {gap : List Token} (hg : ∀ t ∈ gap, t.isTrivia = true)

theorem skip_gap (gap before : List Token) :
    gap.foldl skip ((b.withItem .none).withGap before) =
      (b.withItem .none).withGap (gap.reverse ++ before) := by
  induction gap generalizing before with
  | nil => rfl
  | cons t gap ih => simpa [skip, withItem, withGap] using ih (t :: before)

include hg

theorem skip_name (start : Nat) (property : Token) (after : List Token) :
    gap.foldl skip (b.withItem (.name start property after)) =
      b.withItem (.name start property (gap.reverse ++ after)) := by
  induction gap generalizing after with
  | nil => rfl
  | cons t gap ih =>
    have ht := hg t (by simp)
    simpa [skip, withItem, Item.push, ht] using ih (fun x hx => hg x (by simp [hx])) (t :: after)

theorem skip_separator (start : Nat) (property : Token) (separator : List Token) :
    gap.foldl skip (b.withItem (.value start property separator [] [])) =
      b.withItem (.value start property (gap.reverse ++ separator) [] []) := by
  induction gap generalizing separator with
  | nil => rfl
  | cons t gap ih =>
    have ht := hg t (by simp)
    simpa [skip, withItem, Item.push, ht] using
      ih (fun x hx => hg x (by simp [hx])) (t :: separator)

theorem skip_trail (start : Nat) (property : Token) (separator trail : List Token)
    {body : List Token} (hb : body ≠ []) :
    gap.foldl skip (b.withItem (.value start property separator body trail)) =
      b.withItem (.value start property separator body (gap.reverse ++ trail)) := by
  induction gap generalizing trail with
  | nil => rfl
  | cons t gap ih =>
    have ht := hg t (by simp)
    simpa [skip, withItem, Item.push, ht, hb] using
      ih (fun x hx => hg x (by simp [hx])) (t :: trail)

end Block

/-! ## Values -/

/-- Tokens that do not end the item in which they are read and open no block, where the
brackets `nesting` are open in front of them and none is open behind them. -/
def Stays : Nesting → List Token → Prop
  | nesting, [] => nesting = []
  | [], t :: rest =>
    (t.kind ≠ .semicolon ∧ t.kind ≠ .closing .curly ∧ t.kind ≠ .opening .curly) ∧
      Stays t.opens?.toList rest
  | a :: nesting, t :: rest => Stays (Nesting.step (a :: nesting) t) rest

theorem stays_append {nesting : Nesting} {s t : List Token} (hs : Stays nesting s) (ht : Stays [] t) :
    Stays nesting (s ++ t) := by
  induction s generalizing nesting with
  | nil =>
    obtain rfl : nesting = [] := hs
    exact ht
  | cons a s ih =>
    cases nesting with
    | nil => exact ⟨hs.1, ih hs.2⟩
    | cons b nesting => exact ih (show Stays (Nesting.step (b :: nesting) a) s from hs)

/-- Tokens that stand as a value in a declaration. -/
structure StandsAsValue (ts : List Token) : Prop where
  stays : Stays [] ts
  ne_nil : ts ≠ []
  head : ∀ t, ts.head? = some t → t.isTrivia = false
  last : ∀ t, ts.getLast? = some t → t.isTrivia = false

namespace Block

theorem read_push (b : Block) (position : Nat) {t : Token} {item : Item} (hi : item ≠ .none)
    (hs : t.kind ≠ .semicolon) (ho : t.kind = .opening .curly → item.isCustomValue = true) :
    (b.withItem item).read position t =
      .stay (b.withItem (item.push position t)) t.opens?.toList := by
  have ho' : (b.withItem item).opensRule t = false := by
    by_cases hk : t.kind = .opening .curly
    · simp [opensRule, withItem, ho hk]
    · simp [opensRule, hk]
  rw [read, if_neg hs, ho']
  cases item with
  | none => exact absurd rfl hi
  | _ => rfl

end Block

namespace Reading

section
variable (position : Nat) (sheet : RuleList) (b : Block) (outer : List Frame)

def inItem (position : Nat) (nesting : Nesting) (sheet : RuleList) (b : Block)
    (outer : List Frame) : Reading :=
  ⟨position, nesting, sheet, .block b :: outer⟩

theorem step_inside {nesting : Nesting} (h : nesting ≠ []) (t : Token) :
    (inItem position nesting sheet b outer).step t =
      .ok (inItem (position + t.text.byteSize) (nesting.step t) sheet
        (b.withItem (b.item.pushInside t)) outer) := by
  simp [step, inItem, h, stepInside, Frame.pushInside, Block.withItem]

theorem step_push {item : Item} {t : Token} (hi : item ≠ .none) (hs : t.kind ≠ .semicolon)
    (hc : t.kind ≠ .closing .curly) (ho : t.kind = .opening .curly → item.isCustomValue = true) :
    (inItem position [] sheet (b.withItem item) outer).step t =
      .ok (inItem (position + t.text.byteSize) t.opens?.toList sheet
        (b.withItem (item.push position t)) outer) := by
  have hr := b.read_push position hi hs ho
  have := step_read position sheet (b.withItem item) outer hc
  rw [hr] at this
  exact this

theorem step_body (start : Nat) (property : Token) (separator body trail : List Token)
    {nesting : Nesting} {ts : List Token} {t : Token} (hs : Stays nesting (t :: ts))
    (ht : nesting ≠ [] ∨ t.isTrivia = false) : ∃ nesting', Stays nesting' ts ∧
      (inItem position nesting sheet (b.withItem (.value start property separator body trail))
        outer).step t =
      .ok (inItem (position + t.text.byteSize) nesting' sheet
        (b.withItem (.value start property separator (t :: (trail ++ body)) [])) outer) := by
  cases nesting with
  | nil =>
    have ht : t.isTrivia = false := ht.resolve_left (by simp)
    refine ⟨t.opens?.toList, hs.2, ?_⟩
    rw [step_push _ _ _ _ (by simp) hs.1.1 hs.1.2.1 fun h => absurd h hs.1.2.2]
    simp [Item.push, ht]
  | cons a nesting => exact ⟨_, hs, step_inside _ _ _ _ (by simp) t⟩

/-- The value takes in all tokens up to its last one that is not trivia. -/
theorem run_value (start : Nat) (property : Token) (separator body trail : List Token)
    {nesting : Nesting} {ts : List Token} (hs : Stays nesting ts) (hne : ts ≠ [])
    (hl : ∀ t, ts.getLast? = some t → t.isTrivia = false)
    (hb : body ≠ [] ∨ nesting ≠ [] ∨ ∀ t, ts.head? = some t → t.isTrivia = false) :
    (inItem position nesting sheet (b.withItem (.value start property separator body trail))
      outer).run ts =
      .ok (atBlock (position + Token.sizeOf ts) sheet
        (b.withItem (.value start property separator (ts.reverse ++ trail ++ body) [])) outer) := by
  induction ts generalizing position nesting body trail with
  | nil => exact absurd rfl hne
  | cons t ts ih =>
    have hlast : ts ≠ [] → ∀ x, ts.getLast? = some x → x.isTrivia = false := fun hts x hx =>
      hl x (by rw [List.getLast?_cons_of_ne_nil hts]; exact hx)
    by_cases ht : nesting ≠ [] ∨ t.isTrivia = false
    · obtain ⟨nesting', hs', hstep⟩ := step_body position sheet b outer start property separator
        body trail hs ht
      rw [run, hstep]
      by_cases hts : ts = []
      · subst hts
        obtain rfl : nesting' = [] := hs'
        simp [run, inItem, atBlock, Token.sizeOf, Token.textOf]
      · have := ih (position + t.text.byteSize) (t :: (trail ++ body)) [] hs' hts (hlast hts)
          (.inl (by simp))
        simpa [Token.size_cons, Nat.add_assoc] using this
    · -- white space or a comment between the tokens of the value
      obtain ⟨hn, htriv⟩ := not_or.mp ht
      obtain rfl : nesting = [] := Classical.not_not.mp hn
      have htriv : t.isTrivia = true := by simpa using htriv
      have hbody : body ≠ [] := by
        rcases hb with hb | hb | hb
        · exact hb
        · exact absurd rfl hb
        · simp [hb t rfl] at htriv
      have hts : ts ≠ [] := by
        rintro rfl
        simp [hl t rfl] at htriv
      have hskip : Stays [] ts := by
        have := hs.2
        rwa [Token.opens_trivia htriv] at this
      have := ih (position + t.text.byteSize) body (t :: trail) hskip hts (hlast hts)
        (.inl hbody)
      rw [run, step_push _ _ _ _ (by simp) hs.1.1 hs.1.2.1 fun h => absurd h hs.1.2.2]
      simpa [Item.push, htriv, hbody, Token.opens_trivia htriv, Token.size_cons,
        Nat.add_assoc] using this

theorem step_name (hi : b.item = .none) {name : Token} (hn : name.kind = .ident) :
    (atBlock position sheet b outer).step name = .ok (atBlock (position + name.text.byteSize) sheet
      (b.withItem (.name position name [])) outer) := by
  apply step_stay _ _ _ _ (by simp [hn])
  simp [Block.read, Block.opensRule, hn, hi, Token.isTrivia, Item.push, Token.opens?, Block.withItem]

theorem run_declaration (hi : b.item = .none) (name colon : Token)
    (before after value trail : List Token)
    (hn : name.kind = .ident) (hc : colon.kind = .colon) (hb : ∀ t ∈ before, t.isTrivia = true)
    (ha : ∀ t ∈ after, t.isTrivia = true) (ht : ∀ t ∈ trail, t.isTrivia = true)
    (hv : StandsAsValue value) :
    (atBlock position sheet b outer).run
        (name :: (before ++ colon :: (after ++ (value ++ trail)))) =
      .ok (atBlock (position + Token.sizeOf (name :: (before ++ colon :: (after ++ (value ++ trail)))))
        sheet (b.withItem (.value position name (after.reverse ++ colon :: before.reverse)
          value.reverse trail.reverse)) outer) := by
  have hcolon : ∀ q, (atBlock q sheet (b.withItem (.name position name before.reverse)) outer).step
      colon = .ok (atBlock (q + colon.text.byteSize) sheet
        (b.withItem (.value position name (colon :: before.reverse) [] [])) outer) := by
    intro q
    apply step_stay _ _ _ _ (by simp [hc])
    simp [Block.read, Block.opensRule, hc, Token.isTrivia, Item.push, Token.opens?, Block.withItem]
  have hvalue : ∀ q separator, (atBlock q sheet (b.withItem (.value position name separator [] []))
      outer).run value = .ok (atBlock (q + Token.sizeOf value) sheet
        (b.withItem (.value position name separator value.reverse [])) outer) := by
    intro q separator
    have := run_value q sheet b outer position name separator [] [] hv.stays hv.ne_nil
      hv.last (.inr (.inr hv.head))
    rwa [List.append_nil, List.append_nil] at this
  have hbody : value.reverse ≠ [] := by simpa using hv.ne_nil
  rw [run, step_name _ _ _ _ hi hn]
  simp only
  rw [run_of_run _ (run_trivia _ _ _ _ hb), Block.skip_name _ hb, List.append_nil, run, hcolon]
  simp only
  rw [run_of_run _ (run_trivia _ _ _ _ ha), Block.skip_separator _ ha,
    run_of_run _ (hvalue _ _), run_trivia _ _ _ _ ht, Block.skip_trail _ ht _ _ _ _ hbody,
    List.append_nil]
  simp [Token.size_cons, Token.size_append, Nat.add_assoc]

end
end Reading

/-!
## Taking a text

A reading takes a text if the text is split into tokens that lead from one state to
another.
-/

namespace Reading

/-- The tokens of a text lead from one state to another. -/
def Takes (r : Reading) (u rest : Text) (next : Reading) : Prop :=
  ∃ ts, Splits u ts rest ∧ r.run ts = .ok next

theorem takes_nil (r : Reading) (rest : Text) : r.Takes [] rest r := ⟨[], Splits.nil rest, rfl⟩

theorem Takes.append {r middle next : Reading} {u v rest : Text} (hu : r.Takes u (v ++ rest) middle)
    (hv : middle.Takes v rest next) : r.Takes (u ++ v) rest next := by
  obtain ⟨ts, hts, hrun⟩ := hu
  obtain ⟨us, hus, hrun'⟩ := hv
  exact ⟨ts ++ us, hts.append hus, by rw [run_of_run us hrun, hrun']⟩

theorem takes_mark {r next : Reading} {c : Char} {kind : Token.Kind} {rest : Text}
    (hc : Lexeme.start c rest = .ending 0 kind) (h : r.step ⟨kind, [c]⟩ = .ok next) :
    r.Takes [c] rest next := ⟨_, Splits.of_start hc, by rw [run, h]; rfl⟩

end Reading

end CssFallback
