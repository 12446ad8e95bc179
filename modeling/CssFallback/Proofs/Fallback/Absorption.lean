import CssFallback.Proofs.Fallback.Words

/-!
# A second sweep

Options that want no more than those of an earlier sweep find nothing left to do: a
fallback that is first in front of its declaration has no fallback itself, and it guards
all that stand between it and the declaration.
-/

set_option autoImplicit false

namespace CssFallback

/-- Every switch that is on is also on in `o'`. -/
structure Options.Below (o o' : Options) : Prop where
  overlay : o.overlay = true → o'.overlay = true
  clip : o.clip = true → o'.clip = true
  pairs : o.pairs = true → o'.pairs = true

namespace Fallback
open ValuePart

section
variable {o o' : Options} (hb : o.Below o')
include hb

theorem replacement_below {k : Keyword} {word : Text} (h : replacement? o k = some word) :
    replacement? o' k = some word := by
  have he : o'.enables k = true := by
    obtain ⟨hk, ⟨rfl, -⟩ | ⟨rfl, -⟩⟩ := replacement_some h
    · exact hb.clip hk
    · exact hb.overlay hk
  rw [replacement?, (replacement_some h).1] at h
  rw [replacement?, he]
  exact h

theorem stages_below {ks : List Keyword} {parts : List ValuePart}
    (h : stageValues o' ks parts = []) : stageValues o ks parts = [] := by
  induction ks with
  | nil => rfl
  | cons k later ih =>
    rw [stageValues] at h ⊢
    cases hk : replacement? o k with
    | none =>
      cases hk' : replacement? o' k with
      | none => exact ih (by simpa [hk'] using h)
      | some word =>
        by_cases hw : hasWord k.text parts
        · simp [hk', hw] at h
        · exact ih (by simpa [hk', hw] using h)
    | some word =>
      by_cases hw : hasWord k.text parts
      · simp [replacement_below hb hk, hw] at h
      · simpa [hw] using ih (by simpa [replacement_below hb hk, hw] using h)

/-- What has no fallback under more options has none under fewer. -/
theorem values_below {d : Declaration} (h : values o' d = []) : values o d = [] := by
  rw [values_eq] at h ⊢
  split
  · rename_i k hk
    rw [hk] at h
    cases hr : replacement? o k with
    | none => rfl
    | some word => simp [replacement_below hb hr] at h
  · rename_i hk
    rw [hk] at h
    split
    · rename_i hp
      have hp' : isHandledPair o' d.property (valueParts d.value) = true := by
        simp only [isHandledPair, Bool.and_eq_true] at hp ⊢
        exact ⟨⟨hb.pairs hp.1.1, hp.1.2⟩, hp.2⟩
      exact stages_below hb (by simpa [hp'] using h)
    · rfl

theorem values_front {d : Declaration} {v : Text} {vs : List Text} (h : values o' d = v :: vs) :
    values o (d.fallback v) = [] := by
  rw [values_eq] at h
  split at h
  · rename_i k hk
    have hv : replacement? o' k = some v := by
      cases hr : replacement? o' k with
      | none => simp [hr] at h
      | some word => simp_all
    have hparts := value_parts_word (replacement_plain hv)
    have hm : modernKeyword? v = none := by
      obtain ⟨-, ⟨-, rfl⟩ | ⟨-, rfl⟩⟩ := replacement_some hv <;> decide
    simp [values_eq, Declaration.fallback, hm, hparts, isHandledPair, wordPair?]
  · split at h
    · rename_i hp
      obtain ⟨x, y, hx, hy, hparts⟩ := handled_pair hp
      rw [hparts] at h
      rcases stages_front o' stages x y with ⟨hnil, -⟩ | ⟨more, hmore⟩
      · rw [hnil] at h
        cases h
      · obtain ⟨rfl, -⟩ := List.cons.inj (hmore.symm.trans h)
        have hset : stageValues o stages (pairParts (staged o' stages x) (staged o' stages y)) = [] :=
          stages_settled o stages fun k new hk =>
            ⟨staged_settled (replacement_below hb hk) x, staged_settled (replacement_below hb hk) y⟩
        rw [values_eq]
        simp only [Declaration.fallback, modern_pair,
          value_parts_pair (staged_plain o' stages hx) (staged_plain o' stages hy), hset]
        split <;> rfl
    · cases h

end

/-- Declarations of one property guard each other. -/
theorem provided_guarded (o : Options) (e d : Declaration) (run rest : Declarations)
    (h : ∀ x ∈ run ++ [d], x.property = e.property) :
    provided o (some e) (run ++ d :: rest) = run ++ d :: provided o (some d) rest := by
  induction run generalizing e with
  | nil =>
    have hd : d.property = e.property := h d (by simp)
    simp [provided, additions, isGuarded, hd]
  | cons x run ih =>
    have hx : x.property = e.property := h x (by simp)
    have ha : additions o (some e) x = [] := by simp [additions, isGuarded, hx]
    rw [List.cons_append, provided, ha, ih x fun y hy => by rw [hx]; exact h y (by simp_all)]
    rfl

def first (d : Declaration) (run : Declarations) : Declaration := run.head?.getD d

@[simp] theorem first_nil (d : Declaration) : first d [] = d := rfl

@[simp] theorem first_cons (d f : Declaration) (run : Declarations) : first d (f :: run) = f := rfl

theorem provided_run (o : Options) (previous : Option Declaration) (d : Declaration)
    (run rest : Declarations) (h : ∀ x ∈ run, x.property = d.property) :
    provided o previous (run ++ d :: rest) =
      additions o previous (first d run) ++ (run ++ d :: provided o (some d) rest) := by
  cases run with
  | nil => rfl
  | cons f fs =>
    have hf : ∀ x ∈ fs ++ [d], x.property = f.property := by
      intro x hx
      rw [h f (by simp)]
      rcases List.mem_append.mp hx with hx | hx
      · exact h x (by simp [hx])
      · rw [List.mem_singleton.mp hx]
    rw [List.cons_append, provided, provided_guarded o f d fs rest hf]
    rfl

theorem additions_first {o o' : Options} (hb : o.Below o') (previous : Option Declaration)
    (d : Declaration) : additions o previous (first d (additions o' previous d)) = [] := by
  cases ha : additions o' previous d with
  | nil =>
    rw [first_nil]
    rw [additions] at ha ⊢
    split
    · rename_i hf
      rw [if_pos hf, List.map_eq_nil_iff] at ha
      rw [values_below hb ha, List.map_nil]
    · rfl
  | cons f fs =>
    obtain ⟨v, vs, hvs, rfl⟩ : ∃ v vs, values o' d = v :: vs ∧ f = d.fallback v := by
      rw [additions] at ha
      split at ha
      · obtain ⟨v, vs, hvs, rfl, -⟩ := List.map_eq_cons_iff.mp ha
        exact ⟨v, vs, hvs, rfl⟩
      · cases ha
    simp [first, additions, values_front hb hvs]

theorem provided_provided {o o' : Options} (hb : o.Below o') (previous : Option Declaration)
    (list : Declarations) :
    provided o previous (provided o' previous list) = provided o' previous list := by
  induction list generalizing previous with
  | nil => rfl
  | cons d rest ih =>
    rw [provided, provided_run o previous d _ _ fun x hx => (mem_additions hx).1,
      additions_first hb, ih, List.nil_append]

theorem added_provided {o o' : Options} (hb : o.Below o') (previous : Option Declaration)
    (list : Declarations) : added o previous (provided o' previous list) = 0 := by
  have h := length_provided o previous (provided o' previous list)
  rw [provided_provided hb] at h
  omega

theorem sweep_again {o o' : Options} (hb : o.Below o') (list : Declarations) :
    (sweep o (sweep o' list).1).1 = (sweep o' list).1 ∧
      (sweep o (sweep o' list).1).2.added = 0 := by
  simp only [sweep_local]
  exact ⟨provided_provided hb none list, added_provided hb none list⟩

end Fallback
end CssFallback
