import CssFallback.Proofs.Stylesheet.Splicing
import CssFallback.Proofs.Stylesheet.Mirror
import Mathlib.Data.List.Forall2

/-!
# Blocks of a source

The rules of a sheet are the blocks of declarations of its source, in the order in which
they open. A block reaches to the brace that closes it, or else to the end of the source,
and its declarations stand in it one behind the other, in no brackets inside of it.
-/

set_option autoImplicit false

namespace CssFallback

def Declarations.places (list : Declarations) : List Nat := list.filterMap Declaration.place

/-! ## Tokens of a block -/

namespace Nesting

/-- No brace closes what the tokens stand in, where the brackets `nesting` are open in
front of them. -/
def Keeps : Nesting → List Token → Prop
  | _, [] => True
  | nesting, t :: rest => (nesting = [] → t.kind ≠ .closing .curly) ∧ Keeps (step nesting t) rest

theorem keeps_append {nesting : Nesting} {s t : List Token} :
    Keeps nesting (s ++ t) ↔ Keeps nesting s ∧ Keeps (after nesting s) t := by
  induction s generalizing nesting with
  | nil => simp [Keeps, after]
  | cons x s ih => simp only [List.cons_append, Keeps, ih, and_assoc, after, List.foldl_cons]

theorem after_concat (nesting : Nesting) (ts : List Token) (t : Token) :
    after nesting (ts ++ [t]) = step (after nesting ts) t := by simp [after]

/-- A token only acts on the innermost bracket. -/
theorem step_outside {nesting : Nesting} (h : nesting ≠ []) (outer : Nesting) (t : Token) :
    step (nesting ++ outer) t = step nesting t ++ outer := by
  cases nesting with
  | nil => exact absurd rfl h
  | cons a nesting =>
    simp only [step, close, List.cons_append]
    (repeat' split) <;> simp_all

theorem step_block {t : Token} (h : t.kind ≠ .closing .curly) :
    step [.curly] t = step [] t ++ [.curly] := by
  have hc : t.closes? ≠ some .curly := fun hc => h (Token.kind_of_closes hc)
  rw [step_nil, step]
  cases t.opens? with
  | some b => rfl
  | none =>
    cases hb : t.closes? with
    | none => rfl
    | some b =>
      have hne : Bracket.curly ≠ b := fun he => hc (by rw [hb, he])
      simp [close, hne]

end Nesting

/-- A block in the middle of its source: the brace that opens it, and contents that no
brace closes. At the places stand tokens of the block itself, one behind the other. -/
structure Inside (front : List Token) (brace : Token) (contents : List Token) (places : List Nat) :
    Prop where
  opens : brace.kind = .opening .curly
  keeps : Nesting.Keeps [] contents
  directly : ∀ p ∈ places, ∃ before after, contents = before ++ after ∧
    Nesting.after [] before = [] ∧ Token.sizeOf (front ++ brace :: before) = p
  increasing : places.Pairwise (· < ·)
  passed : ∀ p ∈ places, p < Token.sizeOf (front ++ brace :: contents)

namespace Inside
variable {front : List Token} {brace : Token} {contents : List Token} {places : List Nat} {t : Token}

theorem sublist {places' : List Nat} (h : Inside front brace contents places)
    (hs : places'.Sublist places) : Inside front brace contents places' :=
  ⟨h.opens, h.keeps, fun p hp => h.directly p (hs.subset hp), h.increasing.sublist hs,
    fun p hp => h.passed p (hs.subset hp)⟩

theorem step (h : Inside front brace contents places)
    (ht : Nesting.after [] contents = [] → t.kind ≠ .closing .curly) :
    Inside front brace (contents ++ [t]) places := by
  refine ⟨h.opens, Nesting.keeps_append.mpr ⟨h.keeps, ht, trivial⟩, fun p hp => ?_, h.increasing,
    fun p hp => ?_⟩
  · obtain ⟨before, after, rfl, hbefore, hsize⟩ := h.directly p hp
    exact ⟨before, after ++ [t], by simp, hbefore, hsize⟩
  · have := h.passed p hp
    rw [← List.cons_append, ← List.append_assoc, Token.size_append]
    omega

theorem begin (h : Inside front brace contents places) (hne : t.text ≠ [])
    (hn : Nesting.after [] contents = []) (ht : t.kind ≠ .closing .curly) :
    Inside front brace (contents ++ [t]) (places ++ [Token.sizeOf (front ++ brace :: contents)]) := by
  have hstep := h.step fun _ => ht
  have hsize : 0 < t.text.byteSize := Text.byte_size_pos hne
  refine ⟨h.opens, hstep.keeps, fun p hp => ?_, ?_, fun p hp => ?_⟩
  · rcases List.mem_append.mp hp with hp | hp
    · exact hstep.directly p hp
    · obtain rfl := List.mem_singleton.mp hp
      exact ⟨contents, [t], rfl, hn, rfl⟩
  · rw [List.pairwise_append]
    exact ⟨h.increasing, by simp, by simpa using h.passed⟩
  · rcases List.mem_append.mp hp with hp | hp
    · exact hstep.passed p hp
    · obtain rfl := List.mem_singleton.mp hp
      rw [← List.cons_append, ← List.append_assoc, Token.size_append (front ++ brace :: contents),
        Token.size_cons]
      omega

end Inside

def InBlock (pre : List Token) (position : Nat) (nesting : Nesting) (places : List Nat) : Prop :=
  ∃ front brace contents, pre = front ++ brace :: contents ∧ Token.sizeOf front = position ∧
    Nesting.after [] contents = nesting ∧ Inside front brace contents places

namespace InBlock
variable {pre : List Token} {position : Nat} {nesting : Nesting} {places : List Nat} {t : Token}

theorem opened (h : t.kind = .opening .curly) (pre : List Token) :
    InBlock (pre ++ [t]) (Token.sizeOf pre) [] [] :=
  ⟨pre, t, [], rfl, rfl, rfl, h, trivial, by simp, by simp, by simp⟩

theorem sublist {places' : List Nat} (h : InBlock pre position nesting places)
    (hs : places'.Sublist places) : InBlock pre position nesting places' := by
  obtain ⟨front, brace, contents, hpre, hposition, hnesting, hinside⟩ := h
  exact ⟨front, brace, contents, hpre, hposition, hnesting, hinside.sublist hs⟩

theorem step (h : InBlock pre position nesting places)
    (ht : nesting = [] → t.kind ≠ .closing .curly) :
    InBlock (pre ++ [t]) position (nesting.step t) places := by
  obtain ⟨front, brace, contents, rfl, hposition, rfl, hinside⟩ := h
  exact ⟨front, brace, contents ++ [t], by simp, hposition, Nesting.after_concat _ _ t,
    hinside.step ht⟩

theorem begin (h : InBlock pre position [] places) (hne : t.text ≠ [])
    (ht : t.kind ≠ .closing .curly) :
    InBlock (pre ++ [t]) position (Nesting.step [] t) (places ++ [Token.sizeOf pre]) := by
  obtain ⟨front, brace, contents, rfl, hposition, hnesting, hinside⟩ := h
  exact ⟨front, brace, contents ++ [t], by simp, hposition,
    by rw [Nesting.after_concat, hnesting], hinside.begin hne hnesting ht⟩

end InBlock

/-! ## Rules -/

namespace Rule

def Closes (ts : List Token) (r : Rule) (position : Nat) : Prop :=
  ∃ pre brace back, ts = pre ++ brace :: back ∧ brace.kind = .closing .curly ∧
    InBlock pre position [] r.declarations.places ∧ Token.sizeOf pre = r.stop

/-- The rule is the block whose brace stands at a byte position. It reaches to the brace
that closes it, or else to the end of the source. -/
def Spans (ts : List Token) (r : Rule) (position : Nat) : Prop :=
  r.Closes ts position ∨
    ∃ nesting, InBlock ts position nesting r.declarations.places ∧ Token.sizeOf ts = r.stop

theorem Closes.append {ts : List Token} {r : Rule} {position : Nat} (h : r.Closes ts position)
    (us : List Token) : r.Closes (ts ++ us) position := by
  obtain ⟨pre, brace, back, rfl, hbrace, hinside, hstop⟩ := h
  exact ⟨pre, brace, back ++ us, by simp, hbrace, hinside, hstop⟩

end Rule

/-! ## Frames -/

def Block.places (b : Block) : List Nat := b.declarations.places ++ b.item.start?.toList

def Frame.Opens (pre : List Token) (nesting : Nesting) (positions : List Nat) : Frame → Prop
  | .list l => List.Forall₂ (Rule.Closes pre) l.found positions
  | .block b => ∃ own inner, positions = own :: inner ∧ InBlock pre own nesting b.places ∧
    List.Forall₂ (Rule.Closes pre) b.inner inner

namespace Block
variable (b : Block) (position : Nat) (t : Token)

theorem places_end : b.endItem.declarations.places.Sublist b.places := by
  have hitem : (Declarations.places (b.item.declaration? b.gap).toList).Sublist
      b.item.start?.toList := by
    cases h : b.item.declaration? b.gap with
    | none => simp [Declarations.places]
    | some d =>
      rw [← Item.place_declaration h]
      cases hp : d.place <;> simp [Declarations.places, hp]
  rw [endItem, places, Declarations.places, List.filterMap_append]
  exact hitem.append_left _

theorem places_push_inside : (b.withItem (b.item.pushInside t)).places.Sublist b.places := by
  refine List.Sublist.append_left ?_ _
  rcases b.item.start_push_inside t with h | h <;> simp [withItem, h]

theorem places_read : (b.read position t).state.places.Sublist b.places ∨
    (b.read position t).state.places = b.places ++ [position] := by
  rcases b.read_cases position t with ⟨-, hr⟩ | ⟨-, hr⟩ | ⟨-, -, hr⟩ | ⟨-, hr⟩
  · rw [hr]
    refine .inl ?_
    have := b.places_end
    rwa [show (Step.stay b.endItem []).state.places = b.endItem.declarations.places by
      simp [Step.stay, places, endItem, Item.start?]]
  · rw [hr]
    simp [Step.enter, places, withItem, withGap, Item.start?]
  · rw [hr]
    exact .inl (List.Sublist.refl _)
  · rw [hr]
    rcases b.item.start_push position t with h | h | ⟨hi, -, h⟩
    · exact .inl (by simp [Step.stay, places, withItem, h])
    · exact .inl (by simp [Step.stay, places, withItem, h])
    · have hnone : b.item.start? = none := by rw [hi]; rfl
      exact .inr (by simp [Step.stay, places, withItem, h, hnone])

end Block

namespace Frame.Opens
variable {pre : List Token} {nesting : Nesting} {positions : List Nat} {f : Frame} {t : Token}

theorem step (h : f.Opens pre nesting positions) (hn : nesting ≠ []) :
    f.Opens (pre ++ [t]) (nesting.step t) positions := by
  cases f with
  | list l => exact h.imp fun r q hr => hr.append [t]
  | block b =>
    obtain ⟨own, inner, rfl, hown, hinner⟩ := h
    exact ⟨own, inner, rfl, hown.step fun h0 => absurd h0 hn, hinner.imp fun r q hr => hr.append [t]⟩

theorem push_inside (h : f.Opens pre nesting positions) (t : Token) :
    (f.pushInside t).Opens pre nesting positions := by
  cases f with
  | list l => exact h
  | block b =>
    obtain ⟨own, inner, rfl, hown, hinner⟩ := h
    exact ⟨own, inner, rfl, hown.sublist (b.places_push_inside t), hinner⟩

theorem receive (h : f.Opens pre nesting positions) {rules : List Rule} {inner : List Nat}
    (hr : List.Forall₂ (Rule.Closes pre) rules inner) :
    (f.receive rules).Opens pre nesting (positions ++ inner) := by
  cases f with
  | list l => exact List.rel_append h hr
  | block b =>
    obtain ⟨own, before, rfl, hown, hbefore⟩ := h
    exact ⟨own, before ++ inner, rfl, hown, List.rel_append hbefore hr⟩

theorem read (h : f.Opens pre [] positions) (hne : t.text ≠ [])
    (ht : ∀ b, f = .block b → t.kind ≠ .closing .curly) :
    (f.read (Token.sizeOf pre) t).state.Opens (pre ++ [t]) (Nesting.step [] t) positions := by
  cases f with
  | list l =>
    have hfound := (l.read_cases t).1
    simp only [Frame.read, Step.map, Opens, hfound]
    exact h.imp fun r q hr => hr.append [t]
  | block b =>
    obtain ⟨own, inner, rfl, hown, hinner⟩ := h
    have hclosing := ht b rfl
    have hkept : (b.read (Token.sizeOf pre) t).state.inner = b.inner := by
      rcases b.read_cases (Token.sizeOf pre) t with ⟨-, hr⟩ | ⟨-, hr⟩ | ⟨-, -, hr⟩ | ⟨-, hr⟩ <;>
        rw [hr] <;> rfl
    refine ⟨own, inner, rfl, ?_, ?_⟩
    · rcases b.places_read (Token.sizeOf pre) t with hs | hs
      · exact (hown.step fun _ => hclosing).sublist hs
      · rw [hs]
        exact hown.begin hne hclosing
    · rw [hkept]
      exact hinner.imp fun r q hr => hr.append [t]

theorem rules (h : f.Opens pre [] positions) (ht : t.kind = .closing .curly) :
    List.Forall₂ (Rule.Closes (pre ++ [t])) (f.rules (Token.sizeOf pre)) positions := by
  cases f with
  | list l => exact h.imp fun r q hr => hr.append [t]
  | block b =>
    obtain ⟨own, inner, rfl, hown, hinner⟩ := h
    refine .cons ?_ (hinner.imp fun r q hr => hr.append [t])
    exact ⟨pre, t, [], rfl, ht, hown.sublist b.places_end, rfl⟩

theorem rules_end (h : f.Opens pre nesting positions) {rules : List Rule} {inner : List Nat}
    (hr : List.Forall₂ (Rule.Spans pre) rules inner) :
    List.Forall₂ (Rule.Spans pre) ((f.receive rules).rules (Token.sizeOf pre)) (positions ++ inner) := by
  cases f with
  | list l => exact List.rel_append (h.imp fun r q hr => .inl hr) hr
  | block b =>
    obtain ⟨own, before, rfl, hown, hbefore⟩ := h
    refine .cons (.inr ⟨nesting, hown.sublist b.places_end, rfl⟩) ?_
    exact List.rel_append (hbefore.imp fun r q hr => .inl hr) hr

end Frame.Opens

/-! ## Runs -/

/-- The blocks of the open frames, innermost first, in the order in which they open. -/
inductive Opened (pre : List Token) : Nesting → List Frame → List Nat → Prop
  | nil {nesting : Nesting} : Opened pre nesting [] []
  | cons {nesting : Nesting} {f : Frame} {outer : List Frame} {before positions : List Nat}
      (hf : f.Opens pre nesting positions) (ho : Opened pre (nesting ++ [.curly]) outer before) :
      Opened pre nesting (f :: outer) (before ++ positions)

namespace Opened
variable {pre : List Token} {nesting : Nesting} {frames : List Frame} {positions : List Nat}

theorem step (h : Opened pre nesting frames positions) (hn : nesting ≠ []) (t : Token) :
    Opened (pre ++ [t]) (nesting.step t) frames positions := by
  induction h with
  | nil => exact .nil
  | cons hf ho ih =>
    refine .cons (hf.step hn) ?_
    rw [← Nesting.step_outside hn]
    exact ih (by simp)

end Opened

def Surroundings.brace (w : Surroundings) (position : Nat) (t : Token) : List Nat :=
  if w.inside.opened t = .declarations then [position] else []

def Surroundings.braces (w : Surroundings) (position : Nat) : List Token → List Nat
  | [] => []
  | t :: rest => w.brace position t ++ braces (w.step t) (position + t.text.byteSize) rest

theorem Frame.opens_entered (f : Frame) {position : Nat} {t : Token} {g : Frame} {w : Surroundings}
    (hg : (f.read position t).entered = some g) (hs : g.Shows ⟨w.inside.opened t, []⟩)
    (pre : List Token) : g.Opens (pre ++ [t]) [] (w.brace (Token.sizeOf pre) t) := by
  have hempty : t.kind = .opening .curly ∧
      (g = .list .empty ∨ ∃ selector, g = .block (.empty selector)) := by
    cases f with
    | list l =>
      obtain ⟨-, he | ⟨ht, he | ⟨selector, he⟩⟩⟩ := l.read_cases t <;>
        simp only [Frame.read, Step.map, he, reduceCtorEq, Option.some.injEq] at hg
      · exact ⟨ht, .inl hg.symm⟩
      · exact ⟨ht, .inr ⟨selector, hg.symm⟩⟩
    | block b =>
      rcases b.read_cases position t with ⟨-, hr⟩ | ⟨ht, hr⟩ | ⟨-, -, hr⟩ | ⟨-, hr⟩ <;>
        simp only [Frame.read, Step.map, hr, Step.stay, Step.enter, reduceCtorEq,
          Option.some.injEq] at hg
      exact ⟨ht.1, .inr ⟨_, hg.symm⟩⟩
  obtain ⟨ht, rfl | ⟨selector, rfl⟩⟩ := hempty
  · have hregion : w.inside.opened t = .rules := hs.1
    rw [Surroundings.brace, hregion, if_neg (by simp)]
    exact .nil
  · have hregion : w.inside.opened t = .declarations := hs.1
    rw [Surroundings.brace, if_pos hregion]
    exact ⟨_, [], rfl, InBlock.opened ht pre, .nil⟩

theorem Mirrors.region_enclosed {nesting : Nesting} {frames : List Frame} {w : Surroundings}
    (h : Mirrors nesting frames w) (hn : nesting ≠ []) : w.inside.region.isBlock = false := by
  cases h with
  | sheet hf => exact absurd rfl hn
  | block hf h => exact absurd rfl hn
  | enclosed hs hf h => exact hs

theorem Scope.brace_of_declarations {s : Scope} {t : Token} (h : s.opened t = .declarations)
    (hs : s.region.isBlock = true) : t.kind = .opening .curly := by
  rcases Region.block_iff.mp hs with hr | hr <;> simp only [opened, hr] at h <;>
    (repeat' split at h) <;> first | assumption | cases h

namespace Reading
variable {pre : List Token} {positions : List Nat} {r next : Reading} {w : Surroundings} {t : Token}

theorem opened_read {f : Frame} {outer : List Frame} (hw : Mirrors [] (f :: outer) w)
    (h : Opened pre [] (f :: outer) positions) (hne : t.text ≠ [])
    (hf : ∀ b, f = .block b → outer ≠ []) (ht : t.kind = .closing .curly → outer = []) :
    Opened (pre ++ [t]) (f.read (Token.sizeOf pre) t).nesting
      ((f.read (Token.sizeOf pre) t).entered.toList ++ (f.read (Token.sizeOf pre) t).state :: outer)
      (positions ++ w.brace (Token.sizeOf pre) t) := by
  cases h with
  | @cons _ _ _ before own hown ho =>
    have hstate := hown.read hne fun b hb hc => hf b hb (ht hc)
    have houter : Opened (pre ++ [t]) (Nesting.step [] t ++ [.curly]) outer before := by
      by_cases hc : t.kind = .closing .curly
      · obtain rfl := ht hc
        cases ho
        exact .nil
      · rw [← Nesting.step_block hc]
        exact ho.step (by simp) t
    have hreads := Frame.reads hw.shows (Token.sizeOf pre) t
    have hentered : ∀ g, (f.read (Token.sizeOf pre) t).entered = some g →
        g.Shows ⟨w.inside.opened t, []⟩ →
          g.Opens (pre ++ [t]) [] (w.brace (Token.sizeOf pre) t) := fun g hg hshows =>
      f.opens_entered hg hshows pre
    rw [Nesting.step_nil] at hstate houter
    generalize f.read (Token.sizeOf pre) t = step at hreads hstate hentered ⊢
    cases hreads with
    | @stay f' hopens hf' =>
      have hbrace : w.brace (Token.sizeOf pre) t = [] := if_neg fun hd => by
        have hk := Scope.brace_of_declarations hd (Frame.block_of_shows hw.shows)
        simp [Token.opens_curly hk] at hopens
      rw [hopens] at hstate houter
      rw [hbrace, List.append_nil]
      exact .cons hstate houter
    | @enclose f' b hopens hregion hf' hsettled =>
      have hbrace : w.brace (Token.sizeOf pre) t = [] := if_neg fun hd => by
        simp [hd, Region.isBlock] at hregion
      rw [hopens] at hstate houter
      rw [hbrace, List.append_nil]
      exact .cons hstate houter
    | @enter f' g hopens hf' hg =>
      rw [hopens] at hstate houter
      exact .cons (hentered g rfl hg) (.cons hstate houter)

theorem opened_step (h : Opened pre r.nesting r.stack positions) (hw : r.In w)
    (hp : r.position = Token.sizeOf pre) (hne : t.text ≠ []) (hs : r.step t = .ok next) :
    Opened (pre ++ [t]) next.nesting next.stack (positions ++ w.brace r.position t) := by
  obtain ⟨-, f, outer, hstack, hcase⟩ := step_cases hs
  have hlast : ∀ b, f = .block b → outer ≠ [] := by
    rintro b rfl rfl
    have := congrArg List.getLast? hstack
    simp [stack] at this
  rw [In, hstack] at hw
  rw [hstack] at h
  rcases hcase with ⟨hn, hnesting, hnext⟩ | ⟨hn, ht, hnesting, g, outer', rfl, hnext⟩ |
    ⟨hn, ht, hnesting, hnext⟩
  · -- inside brackets no block opens
    have hbrace : w.brace r.position t = [] := by
      refine if_neg fun hd => ?_
      have hregion := hw.region_enclosed hn
      rw [Scope.opened_enclosed hregion] at hd
      simp [hd, Region.isBlock] at hregion
    rw [hbrace, List.append_nil, hnesting, hnext]
    cases h with
    | cons hf ho => exact (Opened.cons (hf.push_inside t) ho).step hn t
  · -- a block ends, and the one around it receives its rules
    have hbrace : w.brace r.position t = [] := if_neg fun hd => by
      rw [hn] at hw
      have := Scope.brace_of_declarations hd (Frame.block_of_shows hw.shows)
      simp [ht] at this
    rw [hn] at h
    rw [hbrace, List.append_nil, hnesting, hnext, hp]
    have hclosed : Nesting.step [.curly] t = [] := by
      simp [Nesting.step, Nesting.close, Token.opens?, Token.closes?, ht]
    cases h with
    | cons hf ho =>
      have hrules := hf.rules ht
      have hstep := ho.step (by simp) t
      rw [List.nil_append, hclosed] at hstep
      cases hstep with
      | cons hg ho' =>
        rw [List.append_assoc]
        exact .cons (hg.receive hrules) ho'
  · rw [hn] at h hw
    rw [hnesting, hnext, hp]
    exact opened_read hw h hne hlast ht

theorem opened_run {ts : List Token} {final : Reading} (h : Opened pre r.nesting r.stack positions)
    (hw : r.In w) (hp : r.position = Token.sizeOf pre) (hne : ∀ t ∈ ts, t.text ≠ [])
    (hr : r.run ts = .ok final) :
    Opened (pre ++ ts) final.nesting final.stack (positions ++ w.braces r.position ts) := by
  induction ts generalizing r pre positions w with
  | nil =>
    obtain rfl := Except.ok.inj hr
    simpa [Surroundings.braces] using h
  | cons t ts ih =>
    obtain ⟨next, hs, hrun⟩ := run_cons hr
    have hposition := (step_cases hs).1
    have hnext : next.position = Token.sizeOf (pre ++ [t]) := by
      rw [hposition, hp, Token.size_append]
      simp [Token.sizeOf, Token.textOf]
    have hstep := opened_step h hw hp (hne t (by simp)) hs
    have := ih hstep (in_step hw hs) hnext (fun x hx => hne x (by simp [hx])) hrun
    rw [hposition] at this
    simpa [Surroundings.braces] using this

theorem opened_start : Opened [] start.nesting start.stack [] := by
  have hsheet : Frame.Opens [] [] [] (.list .empty) := .nil
  exact .cons hsheet .nil

theorem spans_end {nesting : Nesting} {sheet : RuleList} {frames : List Frame} {rules : List Rule}
    {inner : List Nat} (h : Opened pre nesting (frames ++ [.list sheet]) positions)
    (hr : List.Forall₂ (Rule.Spans pre) rules inner) :
    List.Forall₂ (Rule.Spans pre) (sheet.found ++ endFrames (Token.sizeOf pre) rules frames)
      (positions ++ inner) := by
  induction frames generalizing nesting positions rules inner with
  | nil =>
    cases h with
    | cons hf ho =>
      cases ho
      exact hf.rules_end hr
  | cons f frames ih =>
    cases h with
    | cons hf ho =>
      rw [List.append_assoc]
      exact ih ho (hf.rules_end hr)

end Reading

/-- The rules of a sheet are the blocks of declarations of its source, one by one. -/
theorem rules_span {css : Text} {s : Stylesheet} (h : Stylesheet.parse css = .ok s) :
    List.Forall₂ (Rule.Spans (lex css)) s.rules (Surroundings.start.braces 0 (lex css)) := by
  obtain ⟨final, hrun, hrules⟩ := run_of_map (Stylesheet.parse_ok.mp h).1
  have hopened := Reading.opened_run Reading.opened_start Reading.in_start rfl
    (text_ne_nil_of_mem_lex css) hrun
  have hposition : final.position = Token.sizeOf (lex css) := by
    rw [Reading.position_run hrun, Reading.start, Nat.zero_add]
  rw [List.nil_append, Reading.stack] at hopened
  have := Reading.spans_end hopened .nil
  rw [← hposition] at this
  rwa [← hrules, Reading.finish, ← List.append_nil (Surroundings.braces _ _ _)]

end CssFallback
