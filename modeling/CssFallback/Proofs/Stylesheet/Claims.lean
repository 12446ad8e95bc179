import CssFallback.Proofs.Stylesheet.Stored
import Mathlib.Algebra.GroupWithZero.Nat

/-!
# Claims on a place

A declaration has a claim on its place, and so has an item that may still become a
declaration. Only an item that begins at a place gets a claim on it, so that no place of
a source is the place of more than one declaration.
-/

set_option autoImplicit false

namespace CssFallback

namespace Declarations

def countAt (p : Nat) (list : Declarations) : Nat := list.countP fun d => d.place == some p

theorem count_append (p : Nat) (s t : Declarations) :
    countAt p (s ++ t) = countAt p s + countAt p t := List.countP_append

theorem eq_of_count {p : Nat} {list : Declarations} (h : countAt p list ≤ 1) {d e : Declaration}
    (hd : d ∈ list) (he : e ∈ list) (hdp : d.place = some p) (hep : e.place = some p) : d = e := by
  induction list with
  | nil => cases hd
  | cons x list ih =>
    have hpos : ∀ y ∈ list, y.place = some p → 0 < countAt p list := fun y hy hp =>
      List.countP_pos_iff.mpr ⟨y, hy, by simp [hp]⟩
    have hx : x.place = some p → countAt p list = 0 := by
      intro hx
      simp only [countAt, List.countP_cons, hx, beq_self_eq_true, if_true] at h
      exact Nat.le_zero.mp (Nat.le_of_succ_le_succ h)
    rcases List.mem_cons.mp hd with rfl | hd' <;> rcases List.mem_cons.mp he with rfl | he'
    · rfl
    · exact absurd (hx hdp) (Nat.pos_iff_ne_zero.mp (hpos e he' hep))
    · exact absurd (hx hep) (Nat.pos_iff_ne_zero.mp (hpos d hd' hdp))
    · refine ih ?_ hd' he'
      rw [countAt, List.countP_cons] at h
      exact Nat.le_trans (Nat.le_add_right _ _) h

end Declarations

namespace Item

/-- Where an item starts that may still be a declaration. -/
def start? : Item → Option Nat
  | .name start _ _ => some start
  | .value start _ _ _ _ => some start
  | _ => Option.none

def claim (p : Nat) (item : Item) : Nat := item.start?.toList.count p

theorem start_push (q : Nat) (item : Item) (t : Token) :
    (item.push q t).start? = item.start? ∨ (item.push q t).start? = Option.none ∨
      item = .none ∧ t.kind = .ident ∧ (item.push q t).start? = some q := by
  cases item with
  | none =>
    rw [push]
    split
    · rename_i h
      exact .inr (.inr ⟨rfl, h, rfl⟩)
    · exact .inl rfl
  | _ => simp only [push]; (repeat' split) <;> simp [start?]

theorem start_push_inside (item : Item) (t : Token) :
    (item.pushInside t).start? = item.start? ∨ (item.pushInside t).start? = Option.none := by
  cases item <;> simp [pushInside, start?]

theorem place_declaration {item : Item} {gap : List Token} {d : Declaration}
    (h : item.declaration? gap = some d) : d.place = item.start? := by
  cases item <;> cases h
  rfl

theorem count_ended (p : Nat) (item : Item) (gap : List Token) :
    Declarations.countAt p (item.declaration? gap).toList ≤ item.claim p := by
  cases h : item.declaration? gap with
  | none => simp [Declarations.countAt]
  | some d =>
    have hd := place_declaration h
    rw [claim, ← hd]
    cases hp : d.place <;> simp [Declarations.countAt, hp, List.count_cons]

end Item

namespace Frame
open Declarations

def item : Frame → Item
  | .list _ => .none
  | .block b => b.item

def claims (p : Nat) : Frame → Nat
  | .list l => countAt p (declarationsOf l.found)
  | .block b => countAt p b.declarations + countAt p (declarationsOf b.inner) + b.item.claim p

theorem claims_eq (p : Nat) (f : Frame) : f.claims p = countAt p f.stored + f.item.claim p := by
  cases f with
  | list l => simp [claims, stored, item, Item.claim, Item.start?]
  | block b => simp [claims, stored, item, count_append]

def Begins (f : Frame) (t : Token) : Prop :=
  t.kind = .ident ∧ ∃ b, f = .block b ∧ b.item = .none

theorem count_rules (p q : Nat) (f : Frame) : countAt p (declarationsOf (f.rules q)) ≤ f.claims p := by
  cases f with
  | list l => exact Nat.le_refl _
  | block b =>
    have := b.item.count_ended p b.gap
    simp only [rules, Block.rules, Block.endItem, declarations_cons, claims, count_append]
    omega

theorem claims_receive (p : Nat) (g : Frame) (rules : List Rule) :
    (g.receive rules).claims p = g.claims p + countAt p (declarationsOf rules) := by
  cases g <;> simp only [receive, RuleList.receive, claims, declarations_append, count_append]
  omega

theorem claims_push_inside (p : Nat) (f : Frame) (t : Token) : (f.pushInside t).claims p ≤ f.claims p := by
  cases f with
  | list l => exact Nat.le_refl _
  | block b =>
    simp only [pushInside, claims, Item.claim]
    rcases b.item.start_push_inside t with h | h <;> simp [h]

theorem claims_read (p q : Nat) (f : Frame) (t : Token) :
    (((f.read q t).entered.toList ++ [(f.read q t).state]).map (claims p)).sum ≤ f.claims p ∨
      (f.Begins t ∧ q = p) ∧
        (((f.read q t).entered.toList ++ [(f.read q t).state]).map (claims p)).sum ≤
          f.claims p + 1 := by
  cases f with
  | list l =>
    obtain ⟨hfound, hentered⟩ := l.read_cases t
    left
    rcases hentered with he | ⟨-, he | ⟨selector, he⟩⟩ <;>
      simp [read, Step.map, he, claims, hfound, RuleList.empty, Block.empty, declarationsOf,
        countAt, Item.claim, Item.start?]
  | block b =>
    have hended := b.item.count_ended p b.gap
    rcases b.read_cases q t with ⟨-, hr⟩ | ⟨-, hr⟩ | ⟨-, -, hr⟩ | ⟨-, hr⟩
    · left
      simp [read, Step.map, hr, Step.stay, claims, Block.endItem, count_append, Item.claim,
        Item.start?] at hended ⊢
      omega
    · left
      simp [read, Step.map, hr, Step.enter, claims, Block.withItem, Block.withGap, Block.empty,
        declarationsOf, countAt, Item.claim, Item.start?]
    · left
      simp [read, Step.map, hr, Step.stay, claims, Block.withGap]
    · have hsum : (((Frame.block b).read q t).entered.toList ++ [((Frame.block b).read q t).state]
          |>.map (claims p)).sum = countAt p b.declarations + countAt p (declarationsOf b.inner) +
            (b.item.push q t).claim p := by
        simp [read, Step.map, hr, Step.stay, claims, Block.withItem]
      rw [hsum, claims]
      rcases b.item.start_push q t with hs | hs | ⟨hi, ht, hs⟩
      · rw [Item.claim, hs, Item.claim]
        exact .inl (Nat.le_refl _)
      · simp [Item.claim, hs]
      · by_cases hq : q = p
        · refine .inr ⟨⟨⟨ht, b, rfl, hi⟩, hq⟩, ?_⟩
          have hone : (b.item.push q t).claim p = 1 := by
            rw [Item.claim, hs, hq]
            simp
          omega
        · simp [Item.claim, hs, hq]

end Frame

namespace Reading

def claims (p : Nat) (r : Reading) : Nat := (r.stack.map (Frame.claims p)).sum

theorem claims_items (p : Nat) (r : Reading) : r.claims p =
    Declarations.countAt p r.stored + (r.stack.map fun f => f.item.claim p).sum := by
  rw [claims, stored]
  induction r.stack with
  | nil => rfl
  | cons f outer ih =>
    simp only [List.map_cons, List.sum_cons, List.flatMap_cons, Declarations.count_append,
      Frame.claims_eq, ih]
    omega

def Begins (r : Reading) (p : Nat) (t : Token) : Prop :=
  r.position = p ∧ r.nesting = [] ∧ ∃ f outer, r.stack = f :: outer ∧ f.Begins t

theorem claims_step (p : Nat) {r next : Reading} {t : Token} (h : r.step t = .ok next) :
    next.claims p ≤ r.claims p ∨ r.Begins p t ∧ next.claims p ≤ r.claims p + 1 := by
  obtain ⟨-, f, outer, hs, hcase⟩ := step_cases h
  rw [claims, claims, hs]
  rcases hcase with ⟨-, -, hn⟩ | ⟨-, -, -, g, outer', rfl, hn⟩ | ⟨hnest, -, -, hn⟩
  · simpa [hn] using .inl (f.claims_push_inside p t)
  · have := f.count_rules p r.position
    simp only [hn, List.map_cons, List.sum_cons, Frame.claims_receive]
    omega
  · rw [hn, ← List.singleton_append, ← List.append_assoc, List.map_append, List.sum_append]
    simp only [List.map_cons, List.sum_cons]
    rcases f.claims_read p r.position t with hr | ⟨⟨hf, hp⟩, hr⟩
    · exact .inl (by omega)
    · exact .inr ⟨⟨hp, hnest, f, outer, hs, hf⟩, by omega⟩

/-! ## Runs -/

/-- No place has two claims, and no place that lies ahead has any. -/
def Fresh (r : Reading) : Prop := ∀ p, r.claims p ≤ if p < r.position then 1 else 0

theorem fresh_start : start.Fresh := by
  intro p
  simp [start, claims, stack, Frame.claims, RuleList.empty, declarationsOf, Declarations.countAt]

theorem fresh_step {r next : Reading} {t : Token} (ht : t.text ≠ []) (hr : r.Fresh)
    (h : r.step t = .ok next) : next.Fresh := by
  intro p
  have hpos := (step_cases h).1
  have hsize : 0 < t.text.byteSize := Text.byte_size_pos ht
  have hp := hr p
  rcases claims_step p h with hc | ⟨hb, hc⟩
  · split at hp <;> split <;> omega
  · have : r.position = p := hb.1
    split at hp <;> split <;> omega

theorem fresh_run {r final : Reading} {ts : List Token} (ht : ∀ t ∈ ts, t.text ≠ []) (hr : r.Fresh)
    (h : r.run ts = .ok final) : final.Fresh := by
  induction ts generalizing r with
  | nil =>
    obtain rfl := Except.ok.inj h
    exact hr
  | cons t ts ih =>
    obtain ⟨next, hs, hrun⟩ := run_cons h
    exact ih (fun x hx => ht x (by simp [hx])) (fresh_step (ht t (by simp)) hr hs) hrun

theorem claims_ahead {r : Reading} {ts : List Token} (ht : ∀ t ∈ ts, t.text ≠ [])
    (h : start.run ts = .ok r) {p : Nat} (hp : r.position ≤ p) : r.claims p = 0 := by
  have hfresh := fresh_run ht fresh_start h p
  rw [if_neg (Nat.not_lt.mpr hp)] at hfresh
  exact Nat.le_zero.mp hfresh

/-- A place without a claim gets one only where an item begins there. -/
theorem locate {p : Nat} {r final : Reading} {ts : List Token} (h : r.run ts = .ok final)
    (hr : r.claims p = 0) (hf : final.claims p ≠ 0) : ∃ front t back middle,
      ts = front ++ t :: back ∧ r.run front = .ok middle ∧ middle.Begins p t := by
  induction ts generalizing r with
  | nil =>
    obtain rfl := Except.ok.inj h
    exact absurd hr hf
  | cons t ts ih =>
    obtain ⟨next, hs, hrun⟩ := run_cons h
    rcases claims_step p hs with hc | ⟨hb, -⟩
    · obtain ⟨front, u, back, middle, rfl, hfront, hm⟩ := ih hrun (by omega)
      exact ⟨t :: front, u, back, middle, rfl, by rw [run, hs]; exact hfront, hm⟩
    · exact ⟨[], t, ts, r, rfl, rfl, hb⟩

/-! ## The end of a source -/

theorem count_end_frames (p q : Nat) (rules : List Rule) (frames : List Frame) :
    Declarations.countAt p (declarationsOf (endFrames q rules frames)) ≤
      Declarations.countAt p (declarationsOf rules) + (frames.map (Frame.claims p)).sum := by
  induction frames generalizing rules with
  | nil => exact Nat.le_refl _
  | cons f frames ih =>
    have hr := (f.receive rules).count_rules p q
    have hf := f.claims_receive p rules
    have := ih ((f.receive rules).rules q)
    simp only [endFrames, List.map_cons, List.sum_cons]
    omega

theorem count_finish (p : Nat) (r : Reading) :
    Declarations.countAt p (declarationsOf r.finish) ≤ r.claims p := by
  have := count_end_frames p r.position [] r.frames
  simp only [finish, declarations_append, Declarations.count_append, claims, stack, List.map_append,
    List.sum_append, List.map_cons, List.map_nil, List.sum_cons, List.sum_nil, Frame.claims]
  simp only [declarationsOf, List.flatMap_nil, Declarations.countAt, List.countP_nil] at *
  omega

end Reading

/-- No two declarations of a source have the same place. -/
theorem count_parse {css : Text} {s : Stylesheet} (h : Stylesheet.parse css = .ok s) (p : Nat) :
    Declarations.countAt p (declarationsOf s.rules) ≤ 1 := by
  rw [Stylesheet.parse] at h
  split at h
  · rename_i r hr
    obtain rfl := Except.ok.inj h
    have hf := Reading.fresh_run (text_ne_nil_of_mem_lex css) Reading.fresh_start hr p
    have := r.count_finish p
    split at hf <;> simp only <;> omega
  · cases h

end CssFallback
