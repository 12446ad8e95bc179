import CssFallback.Proofs.Stylesheet.Bounds

/-!
# Rules that have ended

A rule that has ended is not looked at again. What is read behind it, and which rules end
later, does not depend on it.
-/

set_option autoImplicit false

namespace CssFallback

/-! ## Which rules end -/

namespace Reading

theorem closed_run {r final : Reading} {ts : List Token} (h : r.run ts = .ok final) :
    ∃ ended, final.closed.Perm (ended ++ r.closed) ∧ ∀ x ∈ ended, r.position ≤ x.stop := by
  induction ts generalizing r with
  | nil =>
    obtain rfl := Except.ok.inj h
    exact ⟨[], List.Perm.refl _, by simp⟩
  | cons t ts ih =>
    obtain ⟨next, hs, hrun⟩ := run_cons h
    obtain ⟨ended, hperm, hstop⟩ := ih hrun
    have hpos := (step_cases hs).1
    have hlater : ∀ x ∈ ended, r.position ≤ x.stop := fun x hx => by
      have := hstop x hx
      omega
    rcases closed_step hs with hclosed | ⟨-, x, hx, hclosed⟩
    · exact ⟨ended, hperm.trans (hclosed.append_left ended), hlater⟩
    · refine ⟨ended ++ [x], ?_, ?_⟩
      · rw [List.append_assoc]
        exact hperm.trans (hclosed.append_left ended)
      · simpa [or_imp, forall_and, hx] using hlater

theorem closed_end_frames (q : Nat) (rules : List Rule) (frames : List Frame) : ∃ ended,
    (endFrames q rules frames).Perm (ended ++ (rules ++ frames.flatMap Frame.closed)) ∧
      ∀ x ∈ ended, x.stop = q := by
  induction frames generalizing rules with
  | nil => exact ⟨[], by simp [endFrames], by simp⟩
  | cons f frames ih =>
    obtain ⟨ended, hperm, hstop⟩ := ih ((f.receive rules).rules q)
    have hclosed : ((f.receive rules).closed ++ frames.flatMap Frame.closed).Perm
        (rules ++ (f :: frames).flatMap Frame.closed) := by
      rw [Frame.closed_receive, List.flatMap_cons, List.append_assoc]
      exact List.perm_append_comm_assoc ..
    rw [endFrames]
    rcases (f.receive rules).rules_closed q with hf | ⟨x, hx, hf⟩
    · rw [hf] at hperm ⊢
      exact ⟨ended, hperm.trans (hclosed.append_left ended), hstop⟩
    · rw [hf] at hperm ⊢
      refine ⟨ended ++ [x], ?_, by simpa [or_imp, forall_and, hx] using hstop⟩
      rw [List.append_assoc]
      exact hperm.trans ((hclosed.cons x).append_left ended)

theorem closed_finish (r : Reading) : ∃ ended, r.finish.Perm (ended ++ r.closed) ∧
    ∀ x ∈ ended, x.stop = r.position := by
  obtain ⟨ended, hperm, hstop⟩ := closed_end_frames r.position [] r.frames
  refine ⟨ended, ?_, hstop⟩
  rw [finish, closed, stack, List.flatMap_append]
  refine List.perm_append_comm.trans ?_
  rw [List.nil_append] at hperm
  have := hperm.append_right r.sheet.found
  simpa [Frame.closed] using this

theorem finish_run {r final : Reading} {ts : List Token} (h : r.run ts = .ok final) :
    ∃ ended, final.finish.Perm (ended ++ r.closed) ∧ ∀ x ∈ ended, r.position ≤ x.stop := by
  obtain ⟨ended, hperm, hstop⟩ := closed_run h
  obtain ⟨last, hlast, hend⟩ := closed_finish final
  refine ⟨last ++ ended, ?_, ?_⟩
  · rw [List.append_assoc]
    exact hlast.trans (hperm.append_left last)
  · have hpos := position_run h
    intro x hx
    rcases List.mem_append.mp hx with hx | hx
    · rw [hend x hx]
      omega
    · exact hstop x hx

/-- At most one rule ends in front of a token. -/
theorem count_stop {r next final : Reading} {t : Token} {ts : List Token} (ht : t.text ≠ [])
    (hclosed : ∀ x ∈ r.closed, x.stop ≠ r.position) (hs : r.step t = .ok next)
    (h : next.run ts = .ok final) : final.finish.countP (fun x => x.stop = r.position) ≤ 1 := by
  obtain ⟨ended, hperm, hlater⟩ := finish_run h
  have hpos := (step_cases hs).1
  have hsize : 0 < t.text.byteSize := Text.byte_size_pos ht
  have hended : ended.countP (fun x => x.stop = r.position) = 0 :=
    List.countP_eq_zero.mpr fun x hx => by
      have := hlater x hx
      simp only [decide_eq_true_eq]
      omega
  have hbefore : r.closed.countP (fun x => x.stop = r.position) = 0 :=
    List.countP_eq_zero.mpr fun x hx => by simpa using hclosed x hx
  rw [hperm.countP_eq, List.countP_append, hended, Nat.zero_add]
  rcases closed_step hs with hnext | ⟨-, x, hx, hnext⟩
  · rw [hnext.countP_eq, hbefore]
    exact Nat.zero_le 1
  · rw [hnext.countP_eq, List.countP_cons, hbefore]
    split <;> omega

theorem ended_before {pre : List Token} {r : Reading} (h : r.Ended pre)
    (hpre : ∀ t ∈ pre, t.text ≠ []) : ∀ x ∈ r.closed, x.stop < Token.sizeOf pre := by
  intro x hx
  obtain ⟨front, t, back, rfl, hstop⟩ := h x hx
  have hsize : 0 < t.text.byteSize := Text.byte_size_pos (hpre t (by simp))
  rw [hstop, Token.size_append, Token.size_cons]
  omega

end Reading

/-! ## Changing rules that have ended -/

def RuleList.mapClosed (g : Rule → Rule) (l : RuleList) : RuleList := ⟨l.found.map g, l.pending⟩

theorem RuleList.map_closed_read (g : Rule → Rule) (l : RuleList) (t : Token) :
    (l.mapClosed g).read t = ⟨(l.read t).state.mapClosed g, (l.read t).nesting, (l.read t).entered⟩ := by
  obtain ⟨found, pending⟩ := l
  cases pending <;> simp only [mapClosed, read] <;> split <;> rfl

namespace Frame

def mapClosed (g : Rule → Rule) : Frame → Frame
  | .list l => .list (l.mapClosed g)
  | .block b => .block ⟨b.selector, b.declarations, b.inner.map g, b.gap, b.item⟩

section
variable (g : Rule → Rule) (f : Frame)

theorem map_closed_receive (rules : List Rule) :
    (f.mapClosed g).receive (rules.map g) = (f.receive rules).mapClosed g := by
  cases f <;> simp [mapClosed, receive, RuleList.receive, RuleList.mapClosed]

theorem map_closed_push_inside (t : Token) :
    (f.mapClosed g).pushInside t = (f.pushInside t).mapClosed g := by
  cases f <;> rfl

theorem map_closed_read (q : Nat) (t : Token) : (f.mapClosed g).read q t =
    ⟨(f.read q t).state.mapClosed g, (f.read q t).nesting, (f.read q t).entered⟩ := by
  cases f with
  | list l => simp [mapClosed, read, Step.map, RuleList.map_closed_read]
  | block b =>
    have hopens : Block.opensRule ⟨b.selector, b.declarations, b.inner.map g, b.gap, b.item⟩ t =
        b.opensRule t := rfl
    simp only [mapClosed, read, Block.read, hopens]
    split
    · rfl
    split
    · rfl
    · cases b.item <;> cases t.isTrivia <;> rfl

theorem map_closed_entered (q : Nat) (t : Token) :
    (f.read q t).entered.map (mapClosed g) = (f.read q t).entered := by
  cases f with
  | list l =>
    obtain ⟨-, he | ⟨-, he | ⟨selector, he⟩⟩⟩ := l.read_cases t <;>
      simp [read, Step.map, he, mapClosed, RuleList.mapClosed, RuleList.empty, Block.empty]
  | block b =>
    rcases b.read_cases q t with ⟨-, hr⟩ | ⟨-, hr⟩ | ⟨-, -, hr⟩ | ⟨-, hr⟩ <;>
      simp [read, Step.map, hr, Step.stay, Step.enter, mapClosed, Block.empty]

variable {g}

theorem map_closed_rules {q : Nat} (hg : ∀ x : Rule, x.stop = q → g x = x) :
    (f.mapClosed g).rules q = (f.rules q).map g := by
  cases f with
  | list l => rfl
  | block b =>
    have hrules : ∀ b : Block, b.rules q = ⟨b.selector, b.endItem.declarations, q⟩ :: b.inner :=
      fun _ => rfl
    rw [mapClosed, rules, rules, hrules, hrules, List.map_cons, hg _ rfl]
    rfl

end
end Frame

namespace Reading

def mapClosed (g : Rule → Rule) (r : Reading) : Reading :=
  ⟨r.position, r.nesting, r.sheet.mapClosed g, r.frames.map (Frame.mapClosed g)⟩

section
variable {g : Rule → Rule}

theorem map_closed_step {r next : Reading} {t : Token} (h : r.step t = .ok next)
    (hg : ∀ x : Rule, x.stop = r.position → g x = x) :
    (r.mapClosed g).step t = .ok (next.mapClosed g) := by
  obtain ⟨position, nesting, sheet, frames⟩ := r
  change (Reading.mk position nesting (sheet.mapClosed g) (frames.map (Frame.mapClosed g))).step t = _
  simp only [step] at h ⊢
  by_cases hn : nesting = []
  · rw [if_neg (by simpa using hn)] at h ⊢
    cases frames with
    | nil =>
      by_cases hc : t.kind = .closing .curly ∧ sheet.pending.isNone = true
      · simp [hc] at h
      · rw [if_neg hc] at h
        obtain rfl := Except.ok.inj h
        have hc' : ¬ (t.kind = .closing .curly ∧ (sheet.mapClosed g).pending.isNone = true) := hc
        have hentered : (sheet.read t).entered.map (Frame.mapClosed g) = (sheet.read t).entered :=
          Frame.map_closed_entered g (.list sheet) position t
        simp only [List.map_nil]
        rw [if_neg hc']
        simp only [mapClosed, RuleList.map_closed_read]
        rw [← Option.toList_map, hentered]
    | cons f outer =>
      by_cases hc : t.kind = .closing .curly
      · simp only [hc, if_true, List.map_cons] at h ⊢
        obtain rfl := Except.ok.inj h
        cases outer with
        | nil => simp [mapClosed, leave, Frame.map_closed_rules f hg, RuleList.receive,
            RuleList.mapClosed]
        | cons o outer => simp [mapClosed, leave, Frame.map_closed_rules f hg, Frame.map_closed_receive]
      · simp only [hc, if_false, List.map_cons] at h ⊢
        obtain rfl := Except.ok.inj h
        have hentered := Frame.map_closed_entered g f position t
        simp only [mapClosed, stepFrame, Frame.map_closed_read, List.map_append, List.map_cons]
        rw [← Option.toList_map, hentered]
  · rw [if_pos hn] at h ⊢
    obtain rfl := Except.ok.inj h
    cases frames <;> simp [mapClosed, stepInside, Frame.map_closed_push_inside, RuleList.pushInside,
      RuleList.mapClosed]

theorem map_closed_run {r final : Reading} {ts : List Token} (h : r.run ts = .ok final)
    (hg : ∀ x : Rule, r.position ≤ x.stop → g x = x) :
    (r.mapClosed g).run ts = .ok (final.mapClosed g) := by
  induction ts generalizing r with
  | nil =>
    obtain rfl := Except.ok.inj h
    rfl
  | cons t ts ih =>
    obtain ⟨next, hs, hrun⟩ := run_cons h
    have hpos := (step_cases hs).1
    rw [run, map_closed_step hs fun x hx => hg x (Nat.le_of_eq hx.symm)]
    exact ih hrun fun x hx => hg x (by omega)

theorem map_closed_end_frames (q : Nat) (rules : List Rule) (frames : List Frame)
    (hg : ∀ x : Rule, x.stop = q → g x = x) :
    endFrames q (rules.map g) (frames.map (Frame.mapClosed g)) = (endFrames q rules frames).map g := by
  induction frames generalizing rules with
  | nil => rfl
  | cons f frames ih =>
    rw [List.map_cons, endFrames, endFrames, Frame.map_closed_receive, Frame.map_closed_rules _ hg]
    exact ih _

theorem map_closed_finish {r : Reading} (hg : ∀ x : Rule, x.stop = r.position → g x = x) :
    (r.mapClosed g).finish = r.finish.map g := by
  have := map_closed_end_frames r.position [] r.frames hg
  rw [finish, finish, List.map_append, ← this]
  rfl

end
end Reading
end CssFallback
