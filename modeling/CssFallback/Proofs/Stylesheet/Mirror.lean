import CssFallback.Proofs.Stylesheet.Stack

/-!
# Frames and what surrounds a place

A reading has a frame for each block around its place, and for the sheet. The other
brackets there are those of the item, or of the rule, in the innermost frame. So no
bracket but those of blocks is open where none is open in an item.
-/

set_option autoImplicit false

namespace CssFallback

/-! ## Frames and scopes -/

/-- What an item is, seen from the tokens of it that no brackets hold. -/
def Item.Shows (lead : List Token) : Item → Prop
  | .none => Token.solid lead = []
  | .name _ property _ => property.kind = .ident ∧ Token.solid lead = [property]
  | .value _ property _ _ _ => property.kind = .ident ∧
    ∃ colon rest, colon.kind = .colon ∧ Token.solid lead = property :: colon :: rest
  | .other _ => ∃ first rest, Token.solid lead = first :: rest ∧
    (first.kind = .ident → ∃ second more, rest = second :: more ∧ second.kind ≠ .colon)

def Item.isSettled : Item → Bool
  | .value _ _ _ _ _ | .other _ => true
  | _ => false

def Frame.Shows (s : Scope) : Frame → Prop
  | .list l => s.region = .rules ∧
    (s.lead.find? Token.beginsRule).map Token.isGrouping = l.pending.map Prelude.grouping
  | .block b => s.region = .declarations ∧ b.item.Shows s.lead

def Frame.isSettled : Frame → Bool
  | .list _ => true
  | .block b => b.item.isSettled

namespace Item
variable {lead : List Token} {item : Item} {t : Token}

theorem custom_of_shows {s : Scope} (h : item.Shows s.lead) : s.leadsCustom = item.isCustomValue := by
  cases item with
  | none => simp [Scope.leadsCustom, isCustomValue, show Token.solid s.lead = [] from h]
  | name start property after => simp [Scope.leadsCustom, isCustomValue, h.2]
  | value start property separator body trail =>
    obtain ⟨hname, colon, rest, hcolon, hlead⟩ := h
    simp [Scope.leadsCustom, isCustomValue, hlead, hname, hcolon]
  | other tokens =>
    obtain ⟨first, rest, hlead, hnot⟩ := h
    by_cases hfirst : first.kind = .ident
    · obtain ⟨second, more, rfl, hsecond⟩ := hnot hfirst
      simp [Scope.leadsCustom, isCustomValue, hlead, hsecond]
    · cases rest <;> simp [Scope.leadsCustom, isCustomValue, hlead, hfirst]

theorem shows_push (h : item.Shows lead) (q : Nat) (hn : item = .none → t.isTrivia = false) :
    (item.push q t).Shows (lead ++ [t]) := by
  cases item with
  | none =>
    have hlead : Token.solid (lead ++ [t]) = [t] := by
      rw [Token.solid_concat _ (hn rfl), show Token.solid lead = [] from h, List.nil_append]
    rw [push]
    split
    · rename_i hk
      exact ⟨hk, hlead⟩
    · rename_i hk
      exact ⟨t, [], hlead, fun hident => absurd hident hk⟩
  | name start property after =>
    obtain ⟨hname, hlead⟩ := h
    rw [push]
    split
    · rename_i ht
      exact ⟨hname, (Token.solid_concat_trivia _ ht).trans hlead⟩
    · rename_i ht
      have hmore : Token.solid (lead ++ [t]) = [property, t] := by
        rw [Token.solid_concat _ (by simpa using ht), hlead]
        rfl
      split
      · rename_i hk
        exact ⟨hname, t, [], hk, hmore⟩
      · rename_i hk
        exact ⟨property, [t], hmore, fun _ => ⟨t, [], rfl, hk⟩⟩
  | value start property separator body trail =>
    obtain ⟨hname, colon, rest, hcolon, hlead⟩ := h
    have hvalue : ∃ rest, Token.solid (lead ++ [t]) = property :: colon :: rest := by
      rw [Token.solid_append, hlead]
      exact ⟨_, rfl⟩
    obtain ⟨rest', hlead'⟩ := hvalue
    have hshows : ∀ separator body trail,
        (Item.value start property separator body trail).Shows (lead ++ [t]) :=
      fun _ _ _ => ⟨hname, colon, rest', hcolon, hlead'⟩
    rw [push]
    split
    · split <;> exact hshows _ _ _
    · exact hshows _ _ _
  | other tokens =>
    obtain ⟨first, rest, hlead, hnot⟩ := h
    refine ⟨first, rest ++ Token.solid [t], by rw [Token.solid_append, hlead]; rfl, fun hk => ?_⟩
    obtain ⟨second, more, rfl, hsecond⟩ := hnot hk
    exact ⟨second, more ++ Token.solid [t], rfl, hsecond⟩

theorem shows_push_inside (h : item.Shows lead) (hs : item.isSettled = true) :
    (item.pushInside t).Shows lead := by
  cases item with
  | value start property separator body trail => exact h
  | other tokens => exact h
  | _ => cases hs

theorem settled_push_inside : (item.pushInside t).isSettled = true := by
  cases item <;> rfl

theorem settled_push (q : Nat) {b : Bracket} (h : t.opens? = some b) :
    (item.push q t).isSettled = true := by
  have hk : t.kind ≠ .ident ∧ t.kind ≠ .colon ∧ t.isTrivia = false := by
    obtain ⟨kind, text⟩ := t
    cases kind <;> simp_all [Token.opens?, Token.isTrivia]
  cases item with
  | value start property separator body trail =>
    rw [push, hk.2.2]
    rfl
  | _ => simp [push, hk, isSettled]

end Item

namespace Frame
variable {f : Frame} {s : Scope}

theorem shows_push_inside (h : f.Shows s) (hs : f.isSettled = true) (t : Token) :
    (f.pushInside t).Shows s := by
  cases f with
  | list l =>
    refine ⟨h.1, h.2.trans ?_⟩
    cases hp : l.pending <;> simp [RuleList.pushInside, hp, Prelude.pushInside]
  | block b => exact ⟨h.1, Item.shows_push_inside h.2 hs⟩

theorem block_of_shows (h : f.Shows s) : s.region.isBlock = true := by
  cases f <;> simp [h.1, Region.isBlock]

theorem settled_push_inside (t : Token) : (f.pushInside t).isSettled = true := by
  cases f with
  | list l => rfl
  | block b => exact Item.settled_push_inside

theorem shows_receive (h : f.Shows s) (rules : List Rule) : (f.receive rules).Shows s := by
  cases f with
  | list l => exact h
  | block b => exact h

inductive Reads (s : Scope) (t : Token) : Step Frame → Prop
  | stay {f : Frame} (ht : t.opens? = none) (hf : f.Shows (s.read t)) : Reads s t (.stay f [])
  | enclose {f : Frame} {b : Bracket} (ht : t.opens? = some b) (hs : (s.opened t).isBlock = false)
    (hf : f.Shows (s.enter t)) (hsettled : f.isSettled = true) : Reads s t (.stay f [b])
  | enter {f g : Frame} (ht : t.opens? = some .curly) (hf : f.Shows (s.enter t))
    (hg : g.Shows ⟨s.opened t, []⟩) : Reads s t (.enter f g)

theorem reads_more {t : Token} (ht : t.kind ≠ .semicolon) (hf : f.Shows ⟨s.region, s.lead ++ [t]⟩)
    (hb : t.opens?.isSome = true → (s.opened t).isBlock = false ∧ f.isSettled = true) :
    Reads s t (.stay f t.opens?.toList) := by
  cases ho : t.opens? with
  | none => exact .stay ho (by rwa [Scope.read, if_neg ht])
  | some b =>
    obtain ⟨hs, hsettled⟩ := hb (by simp [ho])
    exact .enclose ho hs (by rwa [Scope.enter, hs]) hsettled

end Frame

namespace Step
variable {α β : Type} (f : α → β) (state : α)

theorem map_stay (nesting : Nesting) : (stay state nesting).map f = stay (f state) nesting := rfl

theorem map_enter (frame : Frame) : (enter state frame).map f = enter (f state) frame := rfl

end Step

theorem Token.opens_of_between {t : Token} (h : t.beginsRule = false) : t.opens? = none := by
  obtain ⟨kind, text⟩ := t
  cases kind <;> simp_all [beginsRule, isTrivia, opens?]

theorem Token.kind_of_closes {t : Token} {b : Bracket} (h : t.closes? = some b) :
    t.kind = .closing b := by
  obtain ⟨kind, text⟩ := t
  cases kind <;> simp_all [closes?]

theorem Token.opens_curly {t : Token} (h : t.kind = .opening .curly) : t.opens? = some .curly := by
  simp [opens?, h]

namespace RuleList

theorem read_between {l : RuleList} (h : l.pending = none) (t : Token) :
    l.read t = if t.kind = .opening .curly then .enter l (.block (.empty []))
      else if t.kind = .semicolon ∨ t.beginsRule = false then .stay l []
      else .stay ⟨l.found, some (.start t)⟩ t.opens?.toList := by
  rw [read, h]
  cases hk : t.kind with
  | opening b => cases b <;> simp [Token.beginsRule, Token.isTrivia, hk]
  | _ => simp [Token.beginsRule, Token.isTrivia, hk]

theorem read_begun {l : RuleList} {p : Prelude} (h : l.pending = some p) (t : Token) :
    l.read t = if t.kind = .opening .curly then .enter ⟨l.found, none⟩ (frameOf p)
      else if t.kind = .semicolon then .stay ⟨l.found, none⟩ []
      else .stay ⟨l.found, some (p.push t)⟩ t.opens?.toList := by
  rw [read, h]
  cases hk : t.kind with
  | opening b => cases b <;> simp
  | _ => simp

variable {l : RuleList} {s : Scope} (h : (Frame.list l).Shows s) (t : Token)
include h

theorem enclosed_of_shows (ht : t.kind ≠ .opening .curly) : (s.opened t).isBlock = false := by
  simp [Scope.opened, h.1, ht, Region.isBlock]

theorem reads_between (hp : l.pending = none) : Frame.Reads s t ((l.read t).map .list) := by
  have henclosed := enclosed_of_shows h t
  obtain ⟨hregion, hlead⟩ := h
  have hnone : s.lead.find? Token.beginsRule = none := by simpa [hp] using hlead
  rw [read_between hp]
  split
  · -- a block without a text in front of it
    rename_i hk
    have hopened : s.opened t = .declarations := by
      simp [Scope.opened, Scope.leadsGroup, hregion, hk, hnone]
    rw [Step.map_enter]
    refine .enter (Token.opens_curly hk) ⟨hregion, ?_⟩ ⟨hopened, rfl⟩
    simp [Scope.enter, hopened, Region.isBlock, hp]
  split
  · -- a token between rules
    rename_i hk
    have hopens : t.opens? = none := by
      rcases hk with hk | hk
      · simp [Token.opens?, hk]
      · exact Token.opens_of_between hk
    rw [Step.map_stay]
    refine .stay hopens ⟨hregion, ?_⟩
    by_cases hsemi : t.kind = .semicolon
    · simp [Scope.read, hsemi, hp]
    · simp [Scope.read, hsemi, hp, hnone, hk.resolve_left hsemi]
  · -- the first token of a rule
    rename_i hk hbegins
    obtain ⟨hsemi, hbegins⟩ := not_or.mp hbegins
    rw [Step.map_stay]
    refine Frame.reads_more hsemi ⟨hregion, ?_⟩ fun _ => ⟨henclosed hk, rfl⟩
    simp [hnone, hbegins, Prelude.start]

theorem reads_begun {p : Prelude} (hp : l.pending = some p) :
    Frame.Reads s t ((l.read t).map .list) := by
  have henclosed := enclosed_of_shows h t
  obtain ⟨hregion, hlead⟩ := h
  obtain ⟨first, hfirst, hgroup⟩ : ∃ first, s.lead.find? Token.beginsRule = some first ∧
      first.isGrouping = p.grouping := by simpa [hp] using hlead
  rw [read_begun hp]
  split
  · -- the block of the rule
    rename_i hk
    have hopened : s.opened t = if p.grouping then .rules else .declarations := by
      simp [Scope.opened, Scope.leadsGroup, hregion, hk, hfirst, hgroup]
    rw [Step.map_enter]
    refine .enter (Token.opens_curly hk) ⟨hregion, ?_⟩ ?_
    · have hblock : (s.opened t).isBlock = true := by
        rw [hopened]
        split <;> rfl
      simp [Scope.enter, hblock]
    · rw [frameOf, hopened]
      split
      · exact ⟨rfl, rfl⟩
      · exact ⟨rfl, rfl⟩
  split
  · rename_i hk
    rw [Step.map_stay]
    refine .stay (by simp [Token.opens?, hk]) ⟨hregion, ?_⟩
    simp [Scope.read, hk]
  · rename_i hk hsemi
    rw [Step.map_stay]
    refine Frame.reads_more hsemi ⟨hregion, ?_⟩ fun _ => ⟨henclosed hk, rfl⟩
    simp [hfirst, hgroup, Prelude.push]

end RuleList

theorem Block.reads {b : Block} {s : Scope} (h : (Frame.block b).Shows s) (position : Nat)
    (t : Token) : Frame.Reads s t ((b.read position t).map .block) := by
  obtain ⟨hregion, hitem⟩ := h
  have hcustom := Item.custom_of_shows hitem
  rcases b.read_cases position t with ⟨ht, hr⟩ | ⟨ht, hr⟩ | ⟨hi, ht, hr⟩ | ⟨⟨hsolid, hsemi, ht⟩, hr⟩
  · -- the end of an item
    rw [hr, Step.map_stay]
    refine .stay (by simp [Token.opens?, ht]) ⟨hregion, ?_⟩
    simp [Scope.read, ht, endItem, Item.Shows, Token.solid]
  · -- a nested rule
    have hopened : s.opened t = .declarations := by simp [Scope.opened, hregion, hcustom, ht]
    rw [hr, Step.map_enter]
    refine .enter (Token.opens_curly ht.1) ⟨hregion, ?_⟩ ⟨hopened, rfl⟩
    simp [Scope.enter, hopened, Region.isBlock, Item.Shows, Token.solid, withItem, withGap]
  · -- a token between items
    have hsemi : t.kind ≠ .semicolon := Token.kind_ne_of_trivia ht (by decide)
    have hempty : (b.withGap (t :: b.gap)).item.Shows (s.lead ++ [t]) := by
      rw [show (b.withGap (t :: b.gap)).item = .none from hi]
      rw [hi] at hitem
      rwa [Item.Shows, Token.solid_concat_trivia _ ht]
    rw [hr, Step.map_stay]
    exact .stay (Token.opens_trivia ht) ⟨hregion, by rwa [Scope.read, if_neg hsemi]⟩
  · -- one more token of an item
    have henclosed : (s.opened t).isBlock = false := by
      simp only [Scope.opened, hregion, hcustom]
      split
      · rfl
      · rename_i hnot
        rw [if_neg fun hk => hnot (ht hk)]
        rfl
    rw [hr, Step.map_stay]
    refine Frame.reads_more hsemi ⟨hregion, Item.shows_push hitem position hsolid⟩ fun ho => ?_
    obtain ⟨bracket, hbracket⟩ := Option.isSome_iff_exists.mp ho
    exact ⟨henclosed, Item.settled_push position hbracket⟩

theorem Frame.reads {f : Frame} {s : Scope} (h : f.Shows s) (position : Nat) (t : Token) :
    Reads s t (f.read position t) := by
  cases f with
  | block b => exact Block.reads h position t
  | list l =>
    cases hp : l.pending with
    | none => exact RuleList.reads_between h t hp
    | some p => exact RuleList.reads_begun h t hp

/-! ## Readings -/

/-- The brackets that hold blocks are those of the frames. The other ones are inside of
them all, in the item that has been begun. -/
inductive Mirrors : Nesting → List Frame → Surroundings → Prop
  | sheet {f : Frame} {s : Scope} (hf : f.Shows s) : Mirrors [] [f] ⟨s, []⟩
  | block {f : Frame} {s inside : Scope} {frames : List Frame} {outer : List (Bracket × Scope)}
    (hf : f.Shows s) (h : Mirrors [] frames ⟨inside, outer⟩) :
    Mirrors [] (f :: frames) ⟨s, (.curly, inside) :: outer⟩
  | enclosed {b : Bracket} {nesting : Nesting} {f : Frame} {s inside : Scope} {frames : List Frame}
    {outer : List (Bracket × Scope)} (hs : s.region.isBlock = false) (hf : f.isSettled = true)
    (h : Mirrors nesting (f :: frames) ⟨inside, outer⟩) :
    Mirrors (b :: nesting) (f :: frames) ⟨s, (b, inside) :: outer⟩

namespace Mirrors
variable {nesting : Nesting} {f g : Frame} {frames : List Frame} {w : Surroundings} {t : Token}

theorem top (h : Mirrors nesting (f :: frames) w) (hshows : ∀ s, f.Shows s → g.Shows s)
    (hsettled : f.isSettled = true → g.isSettled = true) : Mirrors nesting (g :: frames) w := by
  generalize hstack : f :: frames = stack at h
  induction h with
  | sheet hf =>
    obtain ⟨rfl, rfl⟩ := List.cons.inj hstack
    exact .sheet (hshows _ hf)
  | block hf h =>
    obtain ⟨rfl, rfl⟩ := List.cons.inj hstack
    exact .block (hshows _ hf) h
  | enclosed hs hf h ih =>
    obtain ⟨rfl, rfl⟩ := List.cons.inj hstack
    exact .enclosed hs (hsettled hf) (ih rfl)

theorem inside (h : Mirrors nesting (f :: frames) w) (hn : nesting ≠ []) (t : Token) :
    Mirrors (nesting.step t) (f.pushInside t :: frames) (w.step t) := by
  cases h with
  | sheet hf => exact absurd rfl hn
  | block hf h => exact absurd rfl hn
  | @enclosed b nesting _ s _ _ _ hs hf h =>
    have hsettled := Frame.settled_push_inside (f := f) t
    have hinner := h.top (fun _ hshows => Frame.shows_push_inside hshows hf t) fun _ => hsettled
    cases ho : t.opens? with
    | some b' =>
      have hopened : (s.opened t).isBlock = false := by rwa [Scope.opened_enclosed hs]
      have houter := Mirrors.enclosed (b := b) (s := s.enter t) hs hsettled hinner
      simpa [Nesting.step, Surroundings.step, ho] using
        Mirrors.enclosed (b := b') (s := ⟨s.opened t, []⟩) hopened hsettled houter
    | none =>
      have hread := Mirrors.enclosed (b := b) (s := s.read t) hs hsettled hinner
      cases hc : t.closes? with
      | none => simpa [Nesting.step, Surroundings.step, ho, hc] using hread
      | some b' =>
        by_cases hb : b = b'
        · simpa [Nesting.step, Nesting.close, Surroundings.step, ho, hc, hb] using hinner
        · simpa [Nesting.step, Nesting.close, Surroundings.step, ho, hc, hb, Ne.symm hb] using hread

theorem leave (h : Mirrors [] (f :: g :: frames) w) (ht : t.kind = .closing .curly)
    (rules : List Rule) : Mirrors [] (g.receive rules :: frames) (w.step t) := by
  cases h with
  | block hf h =>
    have hstep := h.top (g := g.receive rules) (fun _ hg => Frame.shows_receive hg rules) fun hg => by
      cases g <;> exact hg
    simpa [Surroundings.step, Token.opens?, Token.closes?, ht] using hstep

theorem step_plain (h : Mirrors [] (f :: frames) w) (ht : t.kind = .closing .curly → frames = [])
    (ho : t.opens? = none) : w.step t = ⟨w.inside.read t, w.outer⟩ := by
  cases h with
  | sheet hf => simp [Surroundings.step, ho]
  | block hf h =>
    have hc : t.closes? ≠ some .curly := by
      intro hc
      obtain rfl := ht (Token.kind_of_closes hc)
      cases h
    simp [Surroundings.step, ho, hc]

theorem shows (h : Mirrors [] (f :: frames) w) : f.Shows w.inside := by
  cases h with
  | sheet hf => exact hf
  | block hf h => exact hf

theorem replace (h : Mirrors [] (f :: frames) w) {s : Scope} (hg : g.Shows s) :
    Mirrors [] (g :: frames) ⟨s, w.outer⟩ := by
  cases h with
  | sheet hf => exact .sheet hg
  | block hf h => exact .block hg h

theorem read (h : Mirrors [] (f :: frames) w) (ht : t.kind = .closing .curly → frames = [])
    (position : Nat) : Mirrors (f.read position t).nesting
      ((f.read position t).entered.toList ++ (f.read position t).state :: frames) (w.step t) := by
  have hreads := Frame.reads h.shows position t
  generalize f.read position t = step at hreads ⊢
  cases hreads with
  | stay ho hf =>
    rw [h.step_plain ht ho]
    exact h.replace hf
  | enclose ho hs hf hsettled =>
    rw [w.step_opens ho]
    exact .enclosed hs hsettled (h.replace hf)
  | enter ho hf hg =>
    rw [w.step_opens ho]
    exact .block hg (h.replace hf)

/-- Where no bracket of an item is open, there are only blocks. -/
theorem blocks (h : Mirrors nesting frames w) (hn : nesting = []) :
    (∀ b ∈ w.brackets, b = .curly) ∧ ∀ r ∈ w.regions, r.isBlock = true := by
  induction h with
  | sheet hf => simpa [Surroundings.brackets, Surroundings.regions] using Frame.block_of_shows hf
  | block hf h ih =>
    obtain ⟨hbrackets, hregions⟩ := ih rfl
    constructor
    · intro b hb
      rcases List.mem_cons.mp hb with rfl | hb
      · rfl
      · exact hbrackets b hb
    · intro r hr
      rcases List.mem_cons.mp hr with rfl | hr
      · exact Frame.block_of_shows hf
      · exact hregions r hr
  | enclosed hs hf h ih => cases hn

end Mirrors

namespace Reading

/-- The surroundings are those of the place up to which the tokens have been read. -/
def In (w : Surroundings) (r : Reading) : Prop := Mirrors r.nesting r.stack w

theorem in_start : start.In .start := .sheet ⟨rfl, rfl⟩

theorem in_step {r next : Reading} {w : Surroundings} {t : Token} (h : r.In w)
    (hs : r.step t = .ok next) : next.In (w.step t) := by
  obtain ⟨-, f, outer, hstack, hcase⟩ := step_cases hs
  rw [In, hstack] at h
  rcases hcase with ⟨hn, hnesting, hnext⟩ | ⟨hn, ht, hnesting, g, outer', rfl, hnext⟩ |
    ⟨hn, ht, hnesting, hnext⟩
  · rw [In, hnesting, hnext]
    exact h.inside hn t
  · rw [hn] at h
    rw [In, hnesting, hnext]
    exact h.leave ht _
  · rw [hn] at h
    rw [In, hnesting, hnext]
    exact h.read ht r.position

theorem in_run {r final : Reading} {w : Surroundings} {ts : List Token} (h : r.In w)
    (hr : r.run ts = .ok final) : final.In (w.after ts) := by
  induction ts generalizing r w with
  | nil =>
    obtain rfl := Except.ok.inj hr
    exact h
  | cons t ts ih =>
    obtain ⟨next, hs, hrun⟩ := run_cons hr
    exact ih (in_step h hs) hrun

end Reading
end CssFallback
