import CssFallback.Proofs.Stylesheet.Anchor

/-!
# Inserting a declaration into a source

A source with one more declaration, in front of another one, is read as the source is,
with the declaration in its place and everything behind it moved.
-/

set_option autoImplicit false

namespace CssFallback

/-- A declaration that takes a number of bytes at a position of the source. -/
structure Insertion where
  position : Nat
  size : Nat
  added : Declaration

namespace Insertion
variable (i : Insertion)

def place (q : Nat) : Nat := if q < i.position then q else q + i.size

def moved (d : Declaration) : Declaration :=
  ⟨d.property, d.value, d.important, d.indent, d.separator, d.place.map i.place⟩

def replace (d : Declaration) : Declarations :=
  (if d.place = some i.position then [i.added] else []) ++ [i.moved d]

def list (declarations : Declarations) : Declarations := declarations.flatMap i.replace

def rule (r : Rule) : Rule := ⟨r.selector, i.list r.declarations, i.place r.stop⟩

def ruleList (l : RuleList) : RuleList := ⟨l.found.map i.rule, l.pending⟩

def block (b : Block) : Block :=
  ⟨b.selector, i.list b.declarations, b.inner.map i.rule, b.gap, b.item.move i.place⟩

def frame : Frame → Frame
  | .list l => .list (i.ruleList l)
  | .block b => .block (i.block b)

def reading (position : Nat) (r : Reading) : Reading :=
  ⟨position, r.nesting, i.ruleList r.sheet, r.frames.map i.frame⟩

theorem list_append (s t : Declarations) : i.list (s ++ t) = i.list s ++ i.list t :=
  List.flatMap_append

theorem replace_other {d : Declaration} (h : d.place ≠ some i.position) : i.replace d = [i.moved d] := by
  simp [replace, h]

theorem tokens_move (f : Nat → Nat) (item : Item) : (item.move f).tokens = item.tokens := by
  cases item <;> rfl

theorem declaration_moved (gap : List Token) (item : Item) :
    (item.move i.place).declaration? gap = (item.declaration? gap).map i.moved := by
  cases item <;> rfl

/-! ## Frames -/

section
variable {i}

theorem block_end {b : Block} (h : b.item.start? ≠ some i.position) :
    i.block b.endItem = (i.block b).endItem := by
  have hd : i.list (b.item.declaration? b.gap).toList =
      ((b.item.move i.place).declaration? b.gap).toList := by
    rw [declaration_moved]
    cases hd : b.item.declaration? b.gap with
    | none => rfl
    | some d =>
      have hp : d.place ≠ some i.position := by rwa [Item.place_declaration hd]
      simp [list, i.replace_other hp]
  simp only [block, Block.endItem, list_append, hd]
  rfl

theorem block_read {b : Block} {position q : Nat} (t : Token) (h : b.item.start? ≠ some i.position)
    (hq : i.place position = q) :
    (i.block b).read q t = ⟨i.block (b.read position t).state, (b.read position t).nesting,
      (b.read position t).entered.map i.frame⟩ := by
  have ho : (i.block b).opensRule t = b.opensRule t := by
    simp [Block.opensRule, block, Item.custom_move]
  rw [Block.read, Block.read, ho]
  split
  · simp [Step.stay, block_end h]
  split
  · have ht : (i.block b).item.tokens = b.item.tokens := tokens_move _ _
    rw [ht]
    simp [Step.enter, block, Item.move, frame, Block.empty, list]
  · subst hq
    have hpush := Item.push_move i.place position b.item t
    cases hi : b.item <;> cases ht : t.isTrivia <;>
      simp_all [block, Step.stay, Item.move]

theorem list_read (l : RuleList) (t : Token) :
    (i.ruleList l).read t = ⟨i.ruleList (l.read t).state, (l.read t).nesting,
      (l.read t).entered.map i.frame⟩ := by
  have hframe : ∀ p, i.frame (RuleList.frameOf p) = RuleList.frameOf p := by
    intro p
    rw [RuleList.frameOf]
    split <;> rfl
  obtain ⟨found, pending⟩ := l
  cases pending with
  | none =>
    simp only [RuleList.read, ruleList]
    split <;> rfl
  | some p =>
    simp only [RuleList.read, ruleList]
    split <;> first | rfl | simp [Step.enter, hframe]

theorem frame_rules {f : Frame} {position q : Nat} (h : ∀ b, f = .block b → b.item.start? ≠ some i.position)
    (hq : i.place position = q) : (i.frame f).rules q = (f.rules position).map i.rule := by
  cases f with
  | list l => rfl
  | block b =>
    have := block_end (h b rfl)
    simp only [frame, Frame.rules, Block.rules, ← this, List.map_cons, rule, hq]
    rfl

theorem frame_receive (f : Frame) (rules : List Rule) :
    i.frame (f.receive rules) = (i.frame f).receive (rules.map i.rule) := by
  cases f <;> simp [frame, Frame.receive, RuleList.receive, ruleList, block]

theorem frame_push_inside (f : Frame) (t : Token) : i.frame (f.pushInside t) = (i.frame f).pushInside t := by
  cases f <;> simp [frame, Frame.pushInside, RuleList.pushInside, ruleList, block, Item.push_inside_move]

theorem frame_read {f : Frame} {position q : Nat} (t : Token)
    (h : ∀ b, f = .block b → b.item.start? ≠ some i.position) (hq : i.place position = q) :
    (i.frame f).read q t = ⟨i.frame (f.read position t).state, (f.read position t).nesting,
      (f.read position t).entered.map i.frame⟩ := by
  cases f with
  | list l => simp [frame, Frame.read, Step.map, list_read]
  | block b => simp [frame, Frame.read, Step.map, block_read t (h b rfl) hq]

/-! ## Runs -/

/-- No item that is being read is to be the declaration at the position. -/
def Avoids (i : Insertion) (r : Reading) : Prop :=
  ∀ b, .block b ∈ r.frames → b.item.start? ≠ some i.position

theorem avoids_of_claims {r : Reading}
    (h : r.claims i.position ≤ Declarations.countAt i.position r.stored) : i.Avoids r := by
  intro b hb hs
  rw [Reading.claims_items] at h
  have hsum : (r.stack.map fun f => f.item.claim i.position).sum = 0 := by omega
  have hzero := List.sum_eq_zero_iff_forall_eq_nat.mp hsum (b.item.claim i.position)
    (List.mem_map.mpr ⟨.block b, by simp [Reading.stack, hb], rfl⟩)
  simp [Item.claim, hs] at hzero

theorem reading_step {r next : Reading} {q : Nat} {t : Token} (h : r.step t = .ok next)
    (hr : i.Avoids r) (hq : i.place r.position = q) :
    (i.reading q r).step t = .ok (i.reading (q + t.text.byteSize) next) := by
  obtain ⟨position, nesting, sheet, frames⟩ := r
  change (Reading.mk q nesting (i.ruleList sheet) (frames.map i.frame)).step t = _
  simp only [Reading.step] at h ⊢
  by_cases hn : nesting = []
  · have hn' : ¬ nesting ≠ [] := fun h => h hn
    rw [if_neg hn'] at h
    rw [if_neg hn']
    cases frames with
    | nil =>
      by_cases hc : t.kind = .closing .curly ∧ sheet.pending.isNone = true
      · simp [hc] at h
      · rw [if_neg hc] at h
        obtain rfl := Except.ok.inj h
        have hc' : ¬ (t.kind = .closing .curly ∧ (i.ruleList sheet).pending.isNone = true) := hc
        simp only [List.map_nil]
        rw [if_neg hc']
        cases he : (sheet.read t).entered <;> simp [reading, list_read, he]
    | cons f outer =>
      have hf : ∀ b, f = .block b → b.item.start? ≠ some i.position := by
        rintro b rfl
        exact hr b (by simp)
      by_cases hc : t.kind = .closing .curly
      · simp only [hc, if_true, List.map_cons] at h ⊢
        obtain rfl := Except.ok.inj h
        cases outer with
        | nil => simp [reading, Reading.leave, frame_rules hf hq, ruleList, RuleList.receive]
        | cons g outer => simp [reading, Reading.leave, frame_rules hf hq, frame_receive]
      · simp only [hc, if_false, List.map_cons] at h ⊢
        obtain rfl := Except.ok.inj h
        cases he : (f.read position t).entered <;>
          simp [reading, Reading.stepFrame, frame_read t hf hq, he]
  · rw [if_pos hn] at h
    rw [if_pos hn]
    obtain rfl := Except.ok.inj h
    cases frames <;> simp [reading, Reading.stepInside, frame_push_inside, ruleList, RuleList.pushInside]

theorem place_add {q : Nat} (h : i.position ≤ q) (n : Nat) : i.place (q + n) = i.place q + n := by
  rw [place, place, if_neg (by omega), if_neg (by omega)]
  omega

theorem reading_run {r final : Reading} {ts : List Token} (h : r.run ts = .ok final)
    (hr : ∀ front back middle, ts = front ++ back → r.run front = .ok middle → i.Avoids middle)
    (hp : i.position ≤ r.position) :
    (i.reading (i.place r.position) r).run ts = .ok (i.reading (i.place final.position) final) := by
  induction ts generalizing r with
  | nil =>
    obtain rfl := Except.ok.inj h
    rfl
  | cons t ts ih =>
    obtain ⟨next, hs, hrun⟩ := Reading.run_cons h
    have hpos := (Reading.step_cases hs).1
    have hnext := reading_step hs (hr [] _ r rfl rfl) rfl
    rw [← place_add hp, ← hpos] at hnext
    rw [Reading.run, hnext]
    refine ih hrun (fun front back middle hts hm => ?_) (by omega)
    exact hr (t :: front) back middle (by simp [hts]) (by rw [Reading.run, hs]; exact hm)

theorem end_frames (position : Nat) {q : Nat} (rules : List Rule) {frames : List Frame}
    (h : ∀ b, .block b ∈ frames → b.item.start? ≠ some i.position) (hq : i.place position = q) :
    Reading.endFrames q (rules.map i.rule) (frames.map i.frame) =
      (Reading.endFrames position rules frames).map i.rule := by
  induction frames generalizing rules with
  | nil => rfl
  | cons f frames ih =>
    have hf : ∀ b, f.receive rules = .block b → b.item.start? ≠ some i.position := by
      intro b hb
      cases f with
      | list l => cases hb
      | block c =>
        obtain rfl := Frame.block.inj hb
        exact h c (by simp)
    simp only [Reading.endFrames, List.map_cons]
    rw [← frame_receive, frame_rules hf hq]
    exact ih _ fun b hb => h b (by simp [hb])

theorem reading_finish {r : Reading} (h : i.Avoids r) :
    (i.reading (i.place r.position) r).finish = r.finish.map i.rule := by
  have := end_frames r.position [] h rfl
  simpa [Reading.finish, reading, ruleList] using this

end
end Insertion
end CssFallback
