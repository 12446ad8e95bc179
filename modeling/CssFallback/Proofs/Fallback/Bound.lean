import CssFallback.Proofs.Fallback.Groups

/-!
# How far a list can grow

Calls of all sorts, each with options of its own, put at most two fallbacks in front of a
declaration. A fallback that is added has lost one of the modern keywords of the one
behind it, and only the first of a run can still get one: what has been added and what
the first one can still lose are together no more than the keywords of the declaration.
-/

set_option autoImplicit false

namespace CssFallback

namespace Fallback
open ValuePart

/-! ## Modern keywords -/

/-- How many modern keywords are among the words of a value. -/
def modern (value : Text) : Nat := stages.countP fun k => hasWord k.text (valueParts value)

theorem modern_le (value : Text) : modern value ≤ 2 := List.countP_le_length

theorem modern_pair_words {a b : Text} (ha : isPlainWord a = true) (hb : isPlainWord b = true) :
    modern (pairText a b) = (if a = Keyword.text .clip ∨ b = Keyword.text .clip then 1 else 0) +
      (if a = Keyword.text .overlay ∨ b = Keyword.text .overlay then 1 else 0) := by
  rw [modern, value_parts_pair ha hb]
  simp only [stages, List.countP_cons, List.countP_nil, has_word_pair]
  omega

theorem reword_other_iff (o : Options) {j k : Keyword} (hj : j ∈ stages) (hjk : k ≠ j)
    (word : Text) : reword o word k = j.text ↔ word = j.text := by
  rw [reword]
  split
  · rename_i new hnew
    have hne : new ≠ j.text ∧ k.text ≠ j.text := by
      obtain ⟨-, ⟨rfl, rfl⟩ | ⟨rfl, rfl⟩⟩ := replacement_some hnew <;>
        (revert hj hjk; cases j <;> decide)
    split
    · rename_i hw
      rw [hw]
      exact iff_of_false hne.1 hne.2
    · exact Iff.rfl
  · exact Iff.rfl

theorem modern_reword (o : Options) {k : Keyword} (hk : k ∈ stages) {a b : Text}
    (ha : isPlainWord a = true) (hb : isPlainWord b = true) :
    modern (pairText (reword o a k) (reword o b k)) +
      (if (replacement? o k).isSome ∧ (a = k.text ∨ b = k.text) then 1 else 0) ≤
        modern (pairText a b) := by
  rw [modern_pair_words ha hb, modern_pair_words (reword_plain o k ha) (reword_plain o k hb)]
  cases hr : replacement? o k with
  | none => simp [reword, hr]
  | some new =>
    have hgone : ∀ word, reword o word k ≠ k.text := reword_new hr
    have hother : ∀ j ∈ stages, k ≠ j → ∀ word, reword o word k = j.text ↔ word = j.text :=
      fun j hj hjk => reword_other_iff o hj hjk
    simp only [stages, List.mem_cons, List.not_mem_nil, or_false] at hk
    rcases hk with rfl | rfl
    · have hoverlay := hother .overlay (by decide) (by decide)
      simp only [hgone, hoverlay, Option.isSome_some, true_and, or_self, if_false]
      omega
    · have hclip := hother .clip (by decide) (by decide)
      simp only [hgone, hclip, Option.isSome_some, true_and, or_self, if_false]
      omega

theorem modern_stages (o : Options) {ks : List Keyword} (hks : ks ⊆ stages) {a b : Text}
    (ha : isPlainWord a = true) (hb : isPlainWord b = true) :
    (stageValues o ks (pairParts a b)).length + modern (pairText (staged o ks a) (staged o ks b)) ≤
      modern (pairText a b) := by
  induction ks generalizing a b with
  | nil => simp [stageValues, staged]
  | cons k later ih =>
    obtain ⟨hk, hlater⟩ := List.cons_subset.mp hks
    have hstage := modern_reword o hk ha hb
    have hrest := ih hlater (reword_plain o k ha) (reword_plain o k hb)
    rw [stage_pair, List.length_append, apply_ite List.length]
    simp only [staged, List.foldl_cons] at hrest ⊢
    simp only [List.length_singleton, List.length_nil]
    omega

/-- The fallbacks of a declaration and the modern keywords of the one in front are no
more than its modern keywords. -/
theorem modern_values (o : Options) (d : Declaration) : (values o d).length +
    modern (first d ((values o d).map d.fallback)).value ≤ modern d.value := by
  rcases values_cases d with ⟨k, hk⟩ | ⟨a, b, ha, hb, hv⟩ | hnone
  · have hvalues : values o d = (replacement? o k).toList := by simp [values_eq, hk]
    obtain ⟨hvalue, -⟩ := modern_cases hk
    rw [hvalues, hvalue]
    cases hr : replacement? o k with
    | none => simp [hvalue]
    | some new =>
      obtain ⟨-, ⟨rfl, rfl⟩ | ⟨rfl, rfl⟩⟩ := replacement_some hr
      · show 1 + modern (Keyword.text .hidden) ≤ modern (Keyword.text .clip)
        decide
      · show 1 + modern (Keyword.text .auto) ≤ modern (Keyword.text .overlay)
        decide
  · rw [values_pair o ha hb hv]
    split
    · have hstages := modern_stages o (List.Subset.refl stages) ha hb
      rcases stages_front o stages a b with ⟨hnil, ha', hb'⟩ | ⟨more, hmore⟩
      · rw [hnil, List.map_nil, first_nil, List.length_nil, Nat.zero_add]
      · rw [hmore] at hstages ⊢
        rw [hv]
        exact hstages
    · simp
  · rw [hnone]
    simp

/-! ## Groups -/

/-- What has been put in front of a declaration, and what may still come. -/
structure Modest (previous : Option Declaration) (g : Group) : Prop where
  led : g.Led
  /-- The additions and the modern keywords left are no more than the keywords there were. -/
  bound : g.added.length + modern g.front.value ≤ modern g.own.value
  guarded : isGuarded previous g.own = true → g.added = []

theorem modest_grow (o : Options) {previous : Option Declaration} {g : Group}
    (h : Modest previous g) : Modest previous (g.grow o previous) := by
  refine ⟨Group.led_grow h.led o previous, ?_, ?_⟩
  · rw [Group.grow]
    split
    · exact h.bound
    · have hvalues := modern_values o g.front
      have hbound := h.bound
      have hfront : Group.front ⟨(values o g.front).map g.own.fallback ++ g.added, g.own⟩ =
          first g.front ((values o g.front).map g.front.fallback) := by
        rw [Group.front_fallback h.led]
        cases values o g.front <;> rfl
      rw [hfront]
      simp only [List.length_append, List.length_map]
      omega
  · rw [Group.own_grow, Group.grow]
    intro hg
    rw [if_pos hg]
    exact h.guarded hg

theorem modest_alone (previous : Option Declaration) (list : Declarations) :
    Along Modest previous (alone list) := by
  induction list generalizing previous with
  | nil => exact fun _ => trivial
  | cons d rest ih =>
    refine along_cons.mpr ⟨⟨nofun, ?_, fun _ => rfl⟩, ih _⟩
    simp [Group.front]

/-! ## Calls -/

inductive Call where
  /-- Provides an index, whatever is there. -/
  | provide (o : Options) (index : Nat)
  | sweep (o : Options)

def Call.apply (list : Declarations) : Call → Declarations
  | .provide o index => (Fallback.provide o list index).1
  | .sweep o => (Fallback.sweep o list).1

def Call.run (list : Declarations) (calls : List Call) : Declarations := calls.foldl apply list

theorem sweep_keeps {P : Declarations → Prop} {o : Options}
    (h : ∀ list index, P list → P (provide o list index).1) {list : Declarations} (hl : P list) :
    P (sweep o list).1 := by
  have hfrom : ∀ left list index tally, P list → P (sweepFrom o left list index tally).1 := by
    intro left
    induction left with
    | zero => exact fun _ _ _ hl => hl
    | succ left ih =>
      intro list index tally hl
      rw [sweepFrom]
      cases list[index]? with
      | none => exact hl
      | some d =>
        by_cases hf : (Property.ofName? d.property).isSome = true
        · simp only [action_provide hf]
          exact ih _ _ _ (h list index hl)
        · simp only [action_none (by simpa using hf)]
          exact ih _ _ _ hl
  exact hfrom _ _ _ _ hl

/-- The list is what it was, with modest additions in front of its declarations. -/
def Grows (list after : Declarations) : Prop :=
  ∃ groups : List Group, groups.map Group.own = list ∧ after = spread groups ∧ Along Modest none groups

theorem grows_provide {list after : Declarations} (h : Grows list after) (o : Options) (index : Nat) :
    Grows list (provide o after index).1 := by
  obtain ⟨groups, hown, rfl, hmodest⟩ := h
  refine ⟨growAt o none groups index, (own_grow_at ..).trans hown, ?_, fun k => ?_⟩
  · simpa using provide_groups (fun _ _ h => h.led) o [] groups index hmodest
  · exact at_grow (Q := fun _ => True) (fun _ _ _ h => modest_grow o h) (fun _ _ => trivial) (hmodest k)

theorem grows_call {list after : Declarations} (h : Grows list after) (c : Call) :
    Grows list (c.apply after) := by
  cases c with
  | provide o index => exact grows_provide h o index
  | sweep o => exact sweep_keeps (P := Grows list) (fun _ index h => grows_provide h o index) h

theorem grows_run {list after : Declarations} (h : Grows list after) (calls : List Call) :
    Grows list (Call.run after calls) := by
  induction calls generalizing after with
  | nil => exact h
  | cons c calls ih => exact ih (grows_call h c)

/-- After any calls the declarations of a list are there as they were, in order, and all
else are fallbacks right in front of one of them: at most two, at most one in front of a
single modern keyword, and none in front of a declaration that had one of its property
in front of it. -/
theorem growth_bounded (list : Declarations) (calls : List Call) :
    ∃ groups : List Group, groups.map Group.own = list ∧ Call.run list calls = spread groups ∧
      ∀ k g, groups[k]? = some g →
        (∀ f ∈ g.added, (∃ v, f = g.own.fallback v) ∧ f.property = g.own.property ∧
          f.important = false) ∧
        g.added.length ≤ 2 ∧
        (g.own.value = Keyword.text .clip ∨ g.own.value = Keyword.text .overlay →
          g.added.length ≤ 1) ∧
        ((Declarations.previous? list k).any (fun p => p.property == g.own.property) = true →
          g.added = []) := by
  obtain ⟨groups, hown, hrun, hmodest⟩ :=
    grows_run ⟨alone list, own_alone list, (spread_alone list).symm, modest_alone none list⟩ calls
  refine ⟨groups, hown, hrun, fun k g hg => ?_⟩
  have h := at_iff.mp (hmodest k) g hg
  have hbound := h.bound
  refine ⟨fun f hf => ?_, ?_, ?_, fun hp => h.guarded ?_⟩
  · obtain ⟨v, rfl⟩ := h.led f hf
    exact ⟨⟨v, rfl⟩, rfl, rfl⟩
  · have := modern_le g.own.value
    omega
  · have hclip : modern (Keyword.text .clip) = 1 := by decide
    have hoverlay : modern (Keyword.text .overlay) = 1 := by decide
    rintro (hv | hv) <;> rw [hv] at hbound <;> omega
  · cases k with
    | zero => simp [Declarations.previous?] at hp
    | succ k => simpa [hown, isGuarded] using hp

/-- Two sweeps for one family each come up to the bound, and a third one adds nothing. -/
example : (Call.run [.fresh "overflow".toList "clip overlay".toList false]
    [.sweep ⟨false, true, true⟩, .sweep ⟨true, false, true⟩, .sweep .all]).length = 3 := by decide

end Fallback
end CssFallback
