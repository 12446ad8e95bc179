import CssFallback.Proofs.Stylesheet.Insertion
import CssFallback.Proofs.Stylesheet.Stray
import Mathlib.Data.List.Basic
import Mathlib.Data.List.Induction

/-!
# Reading in another place

A list of rules takes its tokens in the same way wherever it stands: in the sheet itself,
behind rules that are complete, or in a grouping at-rule. Only the positions are other
ones.
-/

set_option autoImplicit false

namespace CssFallback

/-! ## Lists and their places -/

/-- Where a list of rules stands: it is the sheet itself, or a frame inside a sheet and
in front of other frames. -/
abbrev ListPlace := Option (RuleList × List Frame)

namespace Reading

def around (l : RuleList) : ListPlace → RuleList × List Frame
  | none => (l, [])
  | some (sheet, outer) => (sheet, .list l :: outer)

def atList (position : Nat) (l : RuleList) (place : ListPlace) : Reading :=
  ⟨position, [], (around l place).1, (around l place).2⟩

def within (position : Nat) (l : RuleList) (f : Frame) (place : ListPlace) : Reading :=
  ⟨position, [], (around l place).1, f :: (around l place).2⟩

section
variable (position : Nat) (l : RuleList) (place : ListPlace) {t : Token}

theorem step_list {next : RuleList} (ht : t.kind ≠ .closing .curly) (h : l.read t = .stay next []) :
    (atList position l place).step t = .ok (atList (position + t.text.byteSize) next place) := by
  cases place <;> simp [step, atList, around, ht, h, stepFrame, Frame.read, Step.map, Step.stay]

theorem step_enter {next : RuleList} {f : Frame} (ht : t.kind ≠ .closing .curly)
    (h : l.read t = .enter next f) :
    (atList position l place).step t = .ok (within (position + t.text.byteSize) next f place) := by
  cases place <;>
    simp [step, atList, within, around, ht, h, stepFrame, Frame.read, Step.map, Step.enter]

theorem step_leave (f : Frame) (ht : t.kind = .closing .curly) :
    (within position l f place).step t =
      .ok (atList (position + t.text.byteSize) (l.receive (f.rules position)) place) := by
  cases place <;> simp [step, atList, within, around, ht, leave, Frame.receive]

end
end Reading

/-! ## Other positions -/

def Declaration.shifted (n : Nat) (d : Declaration) : Declaration :=
  ⟨d.property, d.value, d.important, d.indent, d.separator, d.place.map fun p => p + n⟩

def Rule.shifted (n : Nat) (r : Rule) : Rule :=
  ⟨r.selector, r.declarations.map (Declaration.shifted n), r.stop + n⟩

namespace Insertion

/-- A text in front of the whole source, where no declaration stands. -/
def ahead (n : Nat) : Insertion := ⟨0, n, .fresh [] [] false⟩

theorem place_ahead (n q : Nat) : (ahead n).place q = q + n := by simp [place, ahead]

theorem moved_ahead (n : Nat) : (ahead n).moved = Declaration.shifted n := by
  funext d
  have hplace : (ahead n).place = fun p => p + n := funext (place_ahead n)
  rw [moved, hplace, Declaration.shifted]

theorem rule_ahead (n : Nat) {r : Rule} (h : ∀ d ∈ r.declarations, d.place ≠ some 0) :
    (ahead n).rule r = r.shifted n := by
  have hlist : (ahead n).list r.declarations = r.declarations.map (Declaration.shifted n) := by
    rw [list, ← moved_ahead, List.map_eq_flatMap]
    exact List.flatMap_congr fun d hd => (ahead n).replace_other (h d hd)
  rw [rule, hlist, place_ahead, Rule.shifted]

end Insertion

namespace Reading

theorem claims_zero {ts : List Token} {r : Reading} (hts : ∀ t ∈ ts, t.text ≠ [])
    (h : start.run ts = .ok r) : r.claims 0 = 0 := by
  by_cases hc : r.claims 0 = 0
  · exact hc
  obtain ⟨front, t, back, middle, rfl, hfront, hbegins⟩ := locate h (by rfl) hc
  have hsize : Token.sizeOf front = 0 := by
    have := position_run hfront
    rw [hbegins.1, start, Nat.zero_add] at this
    exact this.symm
  cases front with
  | nil =>
    obtain rfl := Except.ok.inj hfront
    obtain ⟨-, -, f, outer, hstack, -, b, rfl, -⟩ := hbegins
    simp [start, stack] at hstack
  | cons first front =>
    have hfirst : 0 < first.text.byteSize := Text.byte_size_pos (hts first (by simp))
    rw [Token.size_cons] at hsize
    omega

def shifted (n : Nat) (r : Reading) : Reading := (Insertion.ahead n).reading (r.position + n) r

theorem avoids_zero {n : Nat} {ts : List Token} {r : Reading} (hts : ∀ t ∈ ts, t.text ≠ [])
    (h : start.run ts = .ok r) : (Insertion.ahead n).Avoids r :=
  Insertion.avoids_of_claims (by rw [show (Insertion.ahead n).position = 0 from rfl, claims_zero hts h]; simp)

theorem step_shifted (n : Nat) {ts : List Token} {r next : Reading} {t : Token}
    (hts : ∀ t ∈ ts, t.text ≠ []) (h : start.run ts = .ok r) (hs : r.step t = .ok next) :
    (r.shifted n).step t = .ok (next.shifted n) := by
  have hstep := Insertion.reading_step hs (avoids_zero (n := n) hts h) (Insertion.place_ahead n _)
  rwa [Nat.add_right_comm, ← (step_cases hs).1] at hstep

theorem finish_shifted (n : Nat) {ts : List Token} {r : Reading} (hts : ∀ t ∈ ts, t.text ≠ [])
    (h : start.run ts = .ok r) : (r.shifted n).finish = r.finish.map (Rule.shifted n) := by
  have hfinish := Insertion.reading_finish (avoids_zero (n := n) hts h)
  rw [Insertion.place_ahead] at hfinish
  rw [shifted, hfinish]
  refine List.map_congr_left fun x hx => Insertion.rule_ahead n fun d hd hplace => ?_
  have hcount := r.count_finish 0
  rw [claims_zero hts h, Nat.le_zero, Declarations.countAt, List.countP_eq_zero] at hcount
  exact hcount d (List.mem_flatMap.mpr ⟨x, hx, hd⟩) (by simp [hplace])

end Reading

/-! ## Other places -/

namespace RuleList

def behind (before : List Rule) (l : RuleList) : RuleList := ⟨before ++ l.found, l.pending⟩

theorem read_behind (before : List Rule) (l : RuleList) (t : Token) :
    (l.behind before).read t = (l.read t).map (behind before) := by
  cases hp : l.pending with
  | none =>
    rw [read_between (show (l.behind before).pending = none from hp), read_between hp]
    (repeat' split) <;> rfl
  | some p =>
    rw [read_begun (show (l.behind before).pending = some p from hp), read_begun hp]
    (repeat' split) <;> rfl

theorem receive_behind (before : List Rule) (l : RuleList) (rules : List Rule) :
    (l.behind before).receive rules = (l.receive rules).behind before := by
  simp [receive, behind]

end RuleList

namespace Reading

def hosted (before : List Rule) (place : ListPlace) (r : Reading) : Reading :=
  ⟨r.position, r.nesting, (around (r.sheet.behind before) place).1,
    r.frames ++ (around (r.sheet.behind before) place).2⟩

/-- A stray brace would end the list, if it is not the sheet. -/
theorem step_hosted (before : List Rule) (place : ListPlace) {r next : Reading} {t : Token}
    (h : r.step t = .ok next)
    (hc : place.isSome = true → r.nesting = [] ∧ r.frames = [] → t.kind ≠ .closing .curly) :
    (r.hosted before place).step t = .ok (next.hosted before place) := by
  obtain ⟨position, nesting, sheet, frames⟩ := r
  by_cases hn : nesting = []
  · subst hn
    cases frames with
    | nil =>
      by_cases ht : t.kind = .closing .curly ∧ sheet.pending.isNone = true
      · simp [step, ht] at h
      · simp only [step, ne_eq, not_true, if_false, if_neg ht] at h
        obtain rfl := Except.ok.inj h
        cases place with
        | none =>
          have ht' : (t.kind = .closing .curly ∧ (sheet.behind before).pending = none) = False := by
            simpa [RuleList.behind] using ht
          simp [step, hosted, around, ht', RuleList.read_behind, Step.map]
        | some outside =>
          have ht' := hc rfl ⟨rfl, rfl⟩
          simp [step, hosted, around, ht', stepFrame, Frame.read, RuleList.read_behind, Step.map]
    | cons f outer =>
      by_cases ht : t.kind = .closing .curly
      · simp only [step, ne_eq, not_true, if_false, if_pos ht] at h
        obtain rfl := Except.ok.inj h
        cases outer <;> cases place <;>
          simp [step, hosted, around, ht, leave, Frame.receive, RuleList.receive_behind]
      · simp only [step, ne_eq, not_true, if_false, if_neg ht] at h
        obtain rfl := Except.ok.inj h
        simp [step, hosted, ht, stepFrame]
  · simp only [step, ne_eq, hn, not_false_eq_true, if_true] at h
    obtain rfl := Except.ok.inj h
    cases frames <;> cases place <;>
      simp [step, hosted, hn, stepInside, around, Frame.pushInside, RuleList.pushInside, RuleList.behind]

/-- Where a list stands, and how far on, makes no difference to what it takes. -/
theorem run_hosted (n : Nat) (before : List Rule) (place : ListPlace) {ts : List Token} {r : Reading}
    (hts : ∀ t ∈ ts, t.text ≠ []) (h : start.run ts = .ok r)
    (hc : place.isSome = true → ∀ front t back, ts = front ++ t :: back → ¬ t.IsStray front) :
    ((start.shifted n).hosted before place).run ts = .ok ((r.shifted n).hosted before place) := by
  induction ts using List.reverseRecOn generalizing r with
  | nil =>
    obtain rfl := Except.ok.inj h
    rfl
  | append_singleton ts t ih =>
    have hfront : ∀ x ∈ ts, x.text ≠ [] := fun x hx => hts x (by simp [hx])
    obtain ⟨middle, hm, hlast⟩ := run_parts h
    obtain ⟨next, hs, hnext⟩ := run_cons hlast
    obtain rfl := Except.ok.inj hnext
    have hstart := ih hfront hm fun hp front x back hx => hc hp front x (back ++ [t]) (by simp [hx])
    have hstep : ((middle.shifted n).hosted before place).step t =
        .ok ((next.shifted n).hosted before place) := by
      refine step_hosted before place (step_shifted n hfront hm hs) fun hp htop ht => ?_
      have htop' : middle.nesting = [] ∧ middle.frames = [] := by
        simpa [shifted, Insertion.reading] using htop
      exact hc hp ts t [] rfl ⟨ht, (top_iff hm).mp htop'⟩
    rw [run_of_run _ hstart, run, hstep]
    rfl

theorem run_hosted_error (n : Nat) (before : List Rule) {ts : List Token} {p : Nat}
    (hts : ∀ t ∈ ts, t.text ≠ []) (h : start.run ts = .error p) :
    ((start.shifted n).hosted before none).run ts = .error (p + n) := by
  obtain ⟨front, t, back, middle, rfl, hfront, hstep⟩ := run_error h
  have hrun := run_hosted n before none (fun x hx => hts x (by simp [hx])) hfront (by simp)
  refine run_error_of_step hrun (step_error_iff.mpr ?_) back
  obtain ⟨⟨ht, hn, hf⟩, hp, rfl⟩ := step_error_iff.mp hstep
  refine ⟨⟨ht, hn, ?_⟩, hp, rfl⟩
  simp [hosted, shifted, Insertion.reading, around, hf]

end Reading

/-! ## Behind a block of the sheet -/

theorem Token.kind_of_opens_curly {t : Token} (h : t.opens? = some .curly) : t.kind = .opening .curly := by
  obtain ⟨kind, text⟩ := t
  cases kind <;> simp_all [opens?]

theorem Nesting.last_step (a : Bracket) (nesting : Nesting) (t : Token) :
    Nesting.step (a :: nesting) t = [] ∨
      (Nesting.step (a :: nesting) t).getLast? = (a :: nesting).getLast? := by
  rw [step]
  split
  · exact .inr (List.getLast?_cons_of_ne_nil (by simp))
  split
  · rw [close]
    split
    · cases nesting with
      | nil => exact .inl rfl
      | cons b nesting => exact .inr (List.getLast?_cons_of_ne_nil (by simp)).symm
    · exact .inr rfl
  · exact .inr rfl

namespace Reading

/-- A rule of the sheet has only been begun if no block is open, and a brace in it is not
the outermost bracket: it would open the block of the rule. -/
structure Orderly (r : Reading) : Prop where
  pending : r.frames ≠ [] → r.sheet.pending = none
  outermost : r.frames = [] → r.nesting.getLast? ≠ some .curly

theorem orderly_start : start.Orderly := ⟨fun _ => rfl, by simp [start]⟩

theorem orderly_read {l : RuleList} {t : Token} {position : Nat} :
    Orderly ⟨position, (l.read t).nesting, (l.read t).state, (l.read t).entered.toList⟩ := by
  have hopens : t.kind ≠ .opening .curly → t.opens?.toList.getLast? ≠ some .curly := by
    intro ht hlast
    cases ho : t.opens? with
    | none => simp [ho] at hlast
    | some b =>
      obtain rfl : b = .curly := by simpa [ho] using hlast
      exact ht (Token.kind_of_opens_curly ho)
  cases hp : l.pending with
  | none =>
    rw [RuleList.read_between hp]
    split
    · exact ⟨fun _ => hp, by simp [Step.enter]⟩
    split
    · exact ⟨fun _ => hp, by simp [Step.stay]⟩
    · rename_i ht _
      exact ⟨fun h => absurd rfl h, fun _ => hopens ht⟩
  | some p =>
    rw [RuleList.read_begun hp]
    split
    · exact ⟨fun _ => rfl, by simp [Step.enter]⟩
    split
    · exact ⟨fun _ => rfl, by simp [Step.stay]⟩
    · rename_i ht _
      exact ⟨fun h => absurd rfl h, fun _ => hopens ht⟩

theorem orderly_step {r next : Reading} {t : Token} (hr : r.Orderly) (h : r.step t = .ok next) :
    next.Orderly := by
  obtain ⟨position, nesting, sheet, frames⟩ := r
  cases nesting with
  | nil =>
    cases frames with
    | nil =>
      simp only [step, ne_eq, not_true, if_false] at h
      split at h
      · cases h
      · obtain rfl := Except.ok.inj h
        exact orderly_read
    | cons f outer =>
      have hp : sheet.pending = none := hr.pending (by simp)
      simp only [step, ne_eq, not_true, if_false] at h
      split at h
      · obtain rfl := Except.ok.inj h
        cases outer <;> exact ⟨fun _ => hp, by simp [leave]⟩
      · obtain rfl := Except.ok.inj h
        exact ⟨fun _ => hp, by simp [stepFrame]⟩
  | cons a nesting =>
    simp only [step, ne_eq, reduceCtorEq, not_false_eq_true, if_true] at h
    obtain rfl := Except.ok.inj h
    cases frames with
    | nil =>
      refine ⟨fun hf => absurd rfl hf, fun _ hlast => ?_⟩
      rcases Nesting.last_step a nesting t with hstep | hstep
      · simp [stepInside, hstep] at hlast
      · exact hr.outermost rfl (hstep.symm.trans hlast)
    | cons f outer => exact ⟨fun _ => hr.pending (by simp), by simp [stepInside]⟩

theorem orderly_run {r final : Reading} {ts : List Token} (hr : r.Orderly) (h : r.run ts = .ok final) :
    final.Orderly := by
  induction ts generalizing r with
  | nil =>
    obtain rfl := Except.ok.inj h
    exact hr
  | cons t ts ih =>
    obtain ⟨next, hs, hrun⟩ := run_cons h
    exact ih (orderly_step hr hs) hrun

/-- What a closing brace closes last is a block, and no bracket of a rule that has been
begun: that would be a brace too. -/
theorem pending_closed {r next : Reading} {t : Token} (hr : r.Orderly)
    (htop : ¬ (r.nesting = [] ∧ r.frames = [])) (ht : t.kind = .closing .curly)
    (h : r.step t = .ok next) (hn : next.nesting = []) (hf : next.frames = []) :
    next.sheet.pending = none := by
  obtain ⟨position, nesting, sheet, frames⟩ := r
  cases nesting with
  | nil =>
    cases frames with
    | nil => exact absurd ⟨rfl, rfl⟩ htop
    | cons f outer =>
      simp only [step, ne_eq, not_true, if_false, if_pos ht] at h
      obtain rfl := Except.ok.inj h
      cases outer <;> exact hr.pending (by simp)
  | cons a nesting =>
    simp only [step, ne_eq, reduceCtorEq, not_false_eq_true, if_true] at h
    obtain rfl := Except.ok.inj h
    cases frames with
    | cons f outer => simp [stepInside] at hf
    | nil =>
      have hclose : Nesting.close .curly (a :: nesting) = [] := by
        simpa [stepInside, Nesting.step, Token.opens?, Token.closes?, ht] using hn
      rw [Nesting.close] at hclose
      split at hclose
      · rename_i ha
        subst ha hclose
        exact absurd rfl (hr.outermost rfl)
      · cases hclose

theorem end_of_block {front : List Token} {t : Token} {r : Reading}
    (h : start.run (front ++ [t]) = .ok r) (ht : t.kind = .closing .curly)
    (hf : Nesting.after [] front = [.curly]) :
    r = ⟨Token.sizeOf (front ++ [t]), [], ⟨r.finish, none⟩, []⟩ := by
  have hclosed : Nesting.after [] (front ++ [t]) = [] := by
    rw [Nesting.after_append, hf]
    simp [Nesting.after, Nesting.step, Nesting.close, Token.opens?, Token.closes?, ht]
  obtain ⟨hn, hframes⟩ := (top_iff h).mpr hclosed
  have hposition : r.position = Token.sizeOf (front ++ [t]) := by
    rw [position_run h, start, Nat.zero_add]
  have hpending : r.sheet.pending = none := by
    obtain ⟨middle, hm, hlast⟩ := run_parts h
    obtain ⟨next, hs, hnext⟩ := run_cons hlast
    obtain rfl := Except.ok.inj hnext
    have htop : ¬ (middle.nesting = [] ∧ middle.frames = []) := by simp [top_iff hm, hf]
    exact pending_closed (orderly_run orderly_start hm) htop ht hs hn hframes
  obtain ⟨position, nesting, ⟨found, pending⟩, frames⟩ := r
  simp only at hn hframes hposition hpending
  simp [hn, hframes, hposition, hpending, finish, endFrames]

end Reading
end CssFallback
