import CssFallback.Proofs.Stylesheet.Splicing

/-!
# Positions of a source

The places of declarations and the ends of blocks lie between two characters of the
source, so that the source can be cut there. A block ends in front of the brace that
closes it, or with the source.
-/

set_option autoImplicit false

namespace CssFallback

/-- A byte position at which a text can be cut in two. -/
def Text.Boundary (t : Text) (position : Nat) : Prop :=
  ∃ front back, t = front ++ back ∧ front.byteSize = position

theorem Text.Boundary.le {t : Text} {position : Nat} (h : t.Boundary position) :
    position ≤ t.byteSize := by
  obtain ⟨front, back, rfl, rfl⟩ := h
  rw [Text.byte_size_append]
  omega

theorem Text.Boundary.behind {front back : Text} {position : Nat} (h : (front ++ back).Boundary position)
    (hfront : front.byteSize ≤ position) :
    ∃ mid rest, back = mid ++ rest ∧ (front ++ mid).byteSize = position := by
  obtain ⟨s, t, hst, rfl⟩ := h
  rcases List.append_eq_append_iff.mp hst with ⟨mid, rfl, rfl⟩ | ⟨more, rfl, rfl⟩
  · exact ⟨mid, t, rfl, rfl⟩
  · have hmore : more = [] := by
      rw [Text.byte_size_append] at hfront
      exact Text.byte_size_eq_zero (by omega)
    exact ⟨[], back, rfl, by simp [hmore]⟩

theorem boundary_of_tokens {ts front back : List Token} (h : ts = front ++ back) :
    (Token.textOf ts).Boundary (Token.sizeOf front) :=
  ⟨Token.textOf front, Token.textOf back, by rw [h, Token.text_of_append], rfl⟩

namespace Frame

def closed : Frame → List Rule
  | .list l => l.found
  | .block b => b.inner

theorem closed_push_inside (f : Frame) (t : Token) : (f.pushInside t).closed = f.closed := by
  cases f <;> rfl

theorem closed_receive (g : Frame) (rules : List Rule) :
    (g.receive rules).closed = g.closed ++ rules := by
  cases g <;> rfl

theorem rules_closed (f : Frame) (q : Nat) :
    f.rules q = f.closed ∨ ∃ r : Rule, r.stop = q ∧ f.rules q = r :: f.closed := by
  cases f with
  | list l => exact .inl rfl
  | block b => exact .inr ⟨_, rfl, rfl⟩

theorem closed_read (f : Frame) (q : Nat) (t : Token) :
    ((f.read q t).entered.toList ++ [(f.read q t).state]).flatMap closed = f.closed := by
  cases f with
  | list l =>
    obtain ⟨hfound, hentered⟩ := l.read_cases t
    rcases hentered with he | ⟨-, he | ⟨selector, he⟩⟩ <;>
      simp [read, Step.map, he, closed, hfound, RuleList.empty, Block.empty]
  | block b =>
    rcases b.read_cases q t with ⟨-, hr⟩ | ⟨-, hr⟩ | ⟨-, -, hr⟩ | ⟨-, hr⟩ <;>
      simp [read, Step.map, hr, Step.stay, Step.enter, closed, Block.endItem, Block.withItem,
        Block.withGap, Block.empty]

end Frame

namespace Reading

def closed (r : Reading) : List Rule := r.stack.flatMap Frame.closed

/-- A token ends at most one block, which is the only one that ends in front of it, and
only a closing brace does. -/
theorem closed_step {r next : Reading} {t : Token} (h : r.step t = .ok next) :
    next.closed.Perm r.closed ∨ t.kind = .closing .curly ∧
      ∃ x : Rule, x.stop = r.position ∧ next.closed.Perm (x :: r.closed) := by
  obtain ⟨-, f, outer, hs, hcase⟩ := step_cases h
  rw [closed, closed, hs]
  rcases hcase with ⟨-, -, hn⟩ | ⟨-, ht, -, g, outer', rfl, hn⟩ | ⟨-, -, -, hn⟩
  · rw [hn, List.flatMap_cons, Frame.closed_push_inside]
    exact .inl (List.Perm.refl _)
  · rw [hn]
    simp only [List.flatMap_cons, Frame.closed_receive, List.append_assoc]
    rcases f.rules_closed r.position with hf | ⟨x, hx, hf⟩
    · rw [hf]
      exact .inl (List.perm_append_comm_assoc ..)
    · rw [hf, List.cons_append]
      exact .inr ⟨ht, x, hx, List.perm_middle.trans ((List.perm_append_comm_assoc ..).cons x)⟩
  · rw [hn, ← List.singleton_append, ← List.append_assoc, List.flatMap_append, f.closed_read]
    exact .inl (List.Perm.refl _)

/-- Every block that has ended did so in front of a token that has been read. -/
def Ended (pre : List Token) (r : Reading) : Prop :=
  ∀ x ∈ r.closed, ∃ front t back, pre = front ++ t :: back ∧ x.stop = Token.sizeOf front

theorem ended_step {pre : List Token} {r next : Reading} {t : Token} (hr : r.Ended pre)
    (hp : r.position = Token.sizeOf pre) (h : r.step t = .ok next) : next.Ended (pre ++ [t]) := by
  have hold : ∀ x ∈ r.closed, ∃ front u back, pre ++ [t] = front ++ u :: back ∧
      x.stop = Token.sizeOf front := by
    intro x hx
    obtain ⟨front, u, back, rfl, hstop⟩ := hr x hx
    exact ⟨front, u, back ++ [t], by simp, hstop⟩
  intro x hx
  rcases closed_step h with hperm | ⟨-, y, hy, hperm⟩
  · exact hold x (hperm.mem_iff.mp hx)
  · rcases List.mem_cons.mp (hperm.mem_iff.mp hx) with rfl | hx
    · exact ⟨pre, t, [], rfl, by rw [hy, hp]⟩
    · exact hold x hx

theorem ended_run {pre ts : List Token} {r final : Reading} (hr : r.Ended pre)
    (hp : r.position = Token.sizeOf pre) (h : r.run ts = .ok final) : final.Ended (pre ++ ts) := by
  induction ts generalizing r pre with
  | nil =>
    obtain rfl := Except.ok.inj h
    simpa using hr
  | cons t ts ih =>
    obtain ⟨next, hs, hrun⟩ := run_cons h
    have hnext : next.position = Token.sizeOf (pre ++ [t]) := by
      rw [(step_cases hs).1, hp, Token.size_append]
      simp [Token.sizeOf, Token.textOf]
    simpa using ih (ended_step hr hp hs) hnext hrun

theorem ended_start : start.Ended [] := by
  simp [Ended, closed, start, stack, Frame.closed, RuleList.empty]

theorem mem_end_frames {q : Nat} {rules : List Rule} {frames : List Frame} {x : Rule}
    (h : x ∈ endFrames q rules frames) :
    x ∈ rules ∨ x ∈ frames.flatMap Frame.closed ∨ x.stop = q := by
  induction frames generalizing rules with
  | nil => exact .inl h
  | cons f frames ih =>
    rw [List.flatMap_cons, List.mem_append]
    rcases ih h with hx | hx | hx
    · have hclosed : ∀ y ∈ (f.receive rules).closed, y ∈ f.closed ∨ y ∈ rules := fun y hy => by
        rwa [Frame.closed_receive, List.mem_append] at hy
      rcases (f.receive rules).rules_closed q with hf | ⟨y, hy, hf⟩
      · rw [hf] at hx
        exact (hclosed x hx).elim (fun h => .inr (.inl (.inl h))) .inl
      · rw [hf] at hx
        rcases List.mem_cons.mp hx with rfl | hx
        · exact .inr (.inr hy)
        · exact (hclosed x hx).elim (fun h => .inr (.inl (.inl h))) .inl
    · exact .inr (.inl (.inr hx))
    · exact .inr (.inr hx)

theorem mem_finish {r : Reading} {x : Rule} (h : x ∈ r.finish) :
    x ∈ r.closed ∨ x.stop = r.position := by
  simp only [closed, stack, List.flatMap_append, List.mem_append, List.flatMap_cons,
    List.flatMap_nil, List.append_nil, Frame.closed]
  rw [finish, List.mem_append] at h
  rcases h with h | h
  · exact .inl (.inr h)
  · rcases mem_end_frames h with h | h | h
    · cases h
    · exact .inl (.inl h)
    · exact .inr h

end Reading

namespace Stylesheet

/-- All positions that a sheet holds are boundaries of its source. -/
structure InBounds (s : Stylesheet) : Prop where
  stops : ∀ r ∈ s.rules, s.source.Boundary r.stop
  places : ∀ r ∈ s.rules, ∀ d ∈ r.declarations, ∀ p, d.place = some p → s.source.Boundary p

theorem in_bounds_of_parse {css : Text} {s : Stylesheet} (h : parse css = .ok s) : s.InBounds := by
  obtain ⟨final, hrun, hrules⟩ := run_of_map (parse_ok.mp h).1
  have hsource : Token.textOf (lex css) = s.source := by rw [text_of_lex, (parse_ok.mp h).2]
  constructor
  · intro r hr
    rw [← hrules] at hr
    rw [← hsource]
    rcases Reading.mem_finish hr with hr | hr
    · obtain ⟨front, t, back, hlex, hstop⟩ := Reading.ended_run Reading.ended_start rfl hrun r hr
      rw [hstop]
      exact boundary_of_tokens hlex
    · have hend : final.position = Token.sizeOf (lex css) := by
        have := Reading.position_run hrun
        simpa [Reading.start] using this
      rw [hr, hend]
      exact boundary_of_tokens (List.append_nil _).symm
  · intro r hr d hd p hp
    obtain ⟨a⟩ := anchored h (List.mem_flatMap.mpr ⟨r, hr, hd⟩) hp
    rw [← hsource, ← a.size_front]
    exact boundary_of_tokens a.lexed

end Stylesheet
end CssFallback
