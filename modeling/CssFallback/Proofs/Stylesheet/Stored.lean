import CssFallback.Proofs.Stylesheet.Stack

/-!
# Declarations that have been read

The declarations of all open frames together. Reading on keeps them, and all of them come
from an item of the source.
-/

set_option autoImplicit false

namespace CssFallback

def declarationsOf (rules : List Rule) : Declarations := rules.flatMap fun r => r.declarations

theorem declarations_append (s t : List Rule) :
    declarationsOf (s ++ t) = declarationsOf s ++ declarationsOf t := List.flatMap_append

theorem declarations_cons (r : Rule) (rules : List Rule) :
    declarationsOf (r :: rules) = r.declarations ++ declarationsOf rules := List.flatMap_cons

namespace Frame

def stored : Frame → Declarations
  | .list l => declarationsOf l.found
  | .block b => b.declarations ++ declarationsOf b.inner

theorem stored_rules (q : Nat) (f : Frame) : f.stored ⊆ declarationsOf (f.rules q) := by
  cases f with
  | list l => exact fun d hd => hd
  | block b =>
    intro d hd
    simp only [stored, List.mem_append] at hd
    simp only [rules, Block.rules, declarations_cons, Block.endItem, List.mem_append]
    exact hd.imp_left .inl

theorem stored_receive (g : Frame) (rules : List Rule) :
    g.stored ++ declarationsOf rules ⊆ (g.receive rules).stored := by
  cases g <;> simp [receive, RuleList.receive, stored, declarations_append]

theorem stored_push_inside (f : Frame) (t : Token) : (f.pushInside t).stored = f.stored := by
  cases f <;> rfl

theorem stored_read (q : Nat) (f : Frame) (t : Token) : f.stored ⊆ (f.read q t).state.stored := by
  cases f with
  | list l => simp [read, Step.map, stored, (l.read_cases t).1]
  | block b =>
    rcases b.read_cases q t with ⟨-, hr⟩ | ⟨-, hr⟩ | ⟨-, -, hr⟩ | ⟨-, hr⟩ <;>
      simp [read, Step.map, hr, Step.stay, Step.enter, stored, Block.endItem, Block.withItem,
        Block.withGap]

end Frame

namespace Reading

def stored (r : Reading) : Declarations := r.stack.flatMap Frame.stored

theorem stored_step {r next : Reading} {t : Token} (h : r.step t = .ok next) :
    r.stored ⊆ next.stored := by
  obtain ⟨-, f, outer, hs, hcase⟩ := step_cases h
  rw [stored, stored, hs]
  rcases hcase with ⟨-, -, hn⟩ | ⟨-, -, -, g, outer', rfl, hn⟩ | ⟨-, -, -, hn⟩
  · simp [hn, Frame.stored_push_inside]
  · intro d hd
    have hg := g.stored_receive (f.rules r.position)
    have hf := f.stored_rules r.position
    simp only [hn, List.flatMap_cons, List.mem_append] at hd ⊢
    rcases hd with hd | hd | hd
    · exact .inl (hg (by simp [hf hd]))
    · exact .inl (hg (by simp [hd]))
    · exact .inr hd
  · intro d hd
    have hf := f.stored_read r.position t
    rw [hn]
    simp only [List.flatMap_cons, List.flatMap_append, List.mem_append] at hd ⊢
    exact .inr (hd.imp_left fun h => hf h)

theorem stored_run {r final : Reading} {ts : List Token} (h : r.run ts = .ok final) :
    r.stored ⊆ final.stored := by
  induction ts generalizing r with
  | nil =>
    obtain rfl := Except.ok.inj h
    exact fun d hd => hd
  | cons t ts ih =>
    obtain ⟨next, hs, hrun⟩ := run_cons h
    exact fun d hd => ih hrun (stored_step hs hd)

theorem stored_end_frames (q : Nat) (rules : List Rule) (frames : List Frame) :
    declarationsOf rules ++ frames.flatMap Frame.stored ⊆
      declarationsOf (endFrames q rules frames) := by
  induction frames generalizing rules with
  | nil => simp [endFrames]
  | cons f frames ih =>
    intro d hd
    have hf := f.stored_receive rules
    have hr := (f.receive rules).stored_rules q
    apply ih
    simp only [List.flatMap_cons, List.mem_append] at hd ⊢
    rcases hd with hd | hd | hd
    · exact .inl (hr (hf (by simp [hd])))
    · exact .inl (hr (hf (by simp [hd])))
    · exact .inr hd

theorem stored_finish (r : Reading) : r.stored ⊆ declarationsOf r.finish := by
  intro d hd
  have := stored_end_frames r.position [] r.frames
  simp only [stored, stack, List.flatMap_append, List.flatMap_cons, List.flatMap_nil, List.append_nil,
    List.mem_append, Frame.stored] at hd
  simp only [finish, declarations_append, List.mem_append]
  exact hd.symm.imp_right fun h => this (by simp [h])

/-! ## Sources of declarations -/

/-- Every declaration comes from an item. -/
def Placed (list : Declarations) : Prop := ∀ d ∈ list, d.place.isSome = true

theorem placed_item (item : Item) (gap : List Token) : Placed (item.declaration? gap).toList := by
  cases item <;> simp [Placed, Item.declaration?]

theorem placed_append {s t : Declarations} : Placed (s ++ t) ↔ Placed s ∧ Placed t :=
  List.forall_mem_append

theorem placed_rules {q : Nat} {f : Frame} (h : Placed f.stored) :
    Placed (declarationsOf (f.rules q)) := by
  cases f with
  | list l => exact h
  | block b =>
    simp only [Frame.stored, placed_append] at h
    simp only [Frame.rules, Block.rules, declarations_cons, Block.endItem, placed_append]
    exact ⟨⟨h.1, placed_item _ _⟩, h.2⟩

theorem placed_receive {g : Frame} {rules : List Rule} (hg : Placed g.stored)
    (h : Placed (declarationsOf rules)) : Placed (g.receive rules).stored := by
  cases g with
  | list l => simpa [Frame.receive, RuleList.receive, Frame.stored, declarations_append,
      placed_append] using ⟨hg, h⟩
  | block b =>
    simp only [Frame.stored, placed_append] at hg
    simpa [Frame.receive, Frame.stored, declarations_append, placed_append] using
      ⟨hg.1, hg.2, h⟩

theorem placed_read {q : Nat} {f : Frame} (h : Placed f.stored) (t : Token) :
    Placed (((f.read q t).entered.toList ++ [(f.read q t).state]).flatMap Frame.stored) := by
  cases f with
  | list l =>
    obtain ⟨hfound, hentered⟩ := l.read_cases t
    rcases hentered with he | ⟨-, he | ⟨selector, he⟩⟩ <;>
      simpa [Frame.read, Step.map, he, Frame.stored, hfound, RuleList.empty, Block.empty,
        declarationsOf] using h
  | block b =>
    have hitem := placed_item b.item b.gap
    simp only [Frame.stored, placed_append] at h
    rcases b.read_cases q t with ⟨-, hr⟩ | ⟨-, hr⟩ | ⟨-, -, hr⟩ | ⟨-, hr⟩
    · simpa [Frame.read, Step.map, hr, Step.stay, Frame.stored, Block.endItem, placed_append] using
        ⟨h.1, hitem, h.2⟩
    all_goals
      simpa [Frame.read, Step.map, hr, Step.stay, Step.enter, Frame.stored, Block.withItem,
        Block.withGap, Block.empty, declarationsOf, placed_append] using h

theorem placed_step {r next : Reading} {t : Token} (h : r.step t = .ok next) (hr : Placed r.stored) :
    Placed next.stored := by
  obtain ⟨-, f, outer, hs, hcase⟩ := step_cases h
  rw [stored, hs, List.flatMap_cons, placed_append] at hr
  rw [stored]
  rcases hcase with ⟨-, -, hn⟩ | ⟨-, -, -, g, outer', rfl, hn⟩ | ⟨-, -, -, hn⟩
  · simpa [hn, Frame.stored_push_inside, placed_append] using hr
  · rw [List.flatMap_cons, placed_append] at hr
    rw [hn, List.flatMap_cons, placed_append]
    exact ⟨placed_receive hr.2.1 (placed_rules hr.1), hr.2.2⟩
  · rw [hn, ← List.singleton_append, ← List.append_assoc, List.flatMap_append, placed_append]
    exact ⟨placed_read hr.1 t, hr.2⟩

theorem placed_run {r final : Reading} {ts : List Token} (h : r.run ts = .ok final)
    (hr : Placed r.stored) : Placed final.stored := by
  induction ts generalizing r with
  | nil =>
    obtain rfl := Except.ok.inj h
    exact hr
  | cons t ts ih =>
    obtain ⟨next, hs, hrun⟩ := run_cons h
    exact ih hrun (placed_step hs hr)

theorem placed_end_frames {q : Nat} {rules : List Rule} {frames : List Frame}
    (hr : Placed (declarationsOf rules)) (h : Placed (frames.flatMap Frame.stored)) :
    Placed (declarationsOf (endFrames q rules frames)) := by
  induction frames generalizing rules with
  | nil => exact hr
  | cons f frames ih =>
    rw [List.flatMap_cons, placed_append] at h
    exact ih (placed_rules (placed_receive h.1 hr)) h.2

theorem placed_finish {r : Reading} (h : Placed r.stored) : Placed (declarationsOf r.finish) := by
  rw [stored, stack, List.flatMap_append, placed_append] at h
  rw [finish, declarations_append, placed_append]
  exact ⟨by simpa [Frame.stored] using h.2, placed_end_frames (by simp [declarationsOf, Placed]) h.1⟩

end Reading

theorem placed_parse {css : Text} {s : Stylesheet} (h : Stylesheet.parse css = .ok s) :
    Reading.Placed (declarationsOf s.rules) := by
  rw [Stylesheet.parse] at h
  split at h
  · rename_i r hr
    obtain rfl := Except.ok.inj h
    refine Reading.placed_finish (Reading.placed_run hr ?_)
    simp [Reading.stored, Reading.stack, Reading.start, Frame.stored, RuleList.empty, declarationsOf,
      Reading.Placed]
  · cases h

end CssFallback
