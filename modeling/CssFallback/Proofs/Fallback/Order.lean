import CssFallback.Proofs.Fallback.Groups

/-!
# The order of processing

The declarations of a list may be provided in any order, some of them more than once and
added ones too. As soon as nothing is left to do, the list is the one that a sweep gives,
and nothing is left to do when each declaration of the list has had its turn.
-/

set_option autoImplicit false

namespace CssFallback

namespace Fallback

def isOverflow (d : Declaration) : Bool := (Property.ofName? d.property).isSome

def provideEach (o : Options) : Declarations → List Nat → Declarations
  | list, [] => list
  | list, i :: later => provideEach o (provide o list i).1 later

/-- Each index holds a declaration of an overflow property when its turn comes. -/
def OnOverflow (o : Options) : Declarations → List Nat → Prop
  | _, [] => True
  | list, i :: later => (∃ d, list[i]? = some d ∧ isOverflow d = true) ∧
      OnOverflow o (provide o list i).1 later

/-- The index of a declaration after some have been put in front of an index. -/
def movedBy (i count k : Nat) : Nat := if k < i then k else k + count

/-- The declaration that is at an index now has its turn, wherever it is then. -/
def Reached (o : Options) : Declarations → List Nat → Nat → Prop
  | _, [], _ => False
  | list, i :: later, k =>
    i = k ∨ Reached o (provide o list i).1 later (movedBy i (provide o list i).2 k)

/-- No declaration of an overflow property gets anything more. -/
def Finished (o : Options) (list : Declarations) : Prop :=
  ∀ i d, list[i]? = some d → isOverflow d = true → (provide o list i).2 = 0

/-! ## Lists in which nothing is left to do -/

theorem added_of_finished {o : Options} (front : Declarations) {back : Declarations}
    (h : Finished o (front ++ back)) : added o front.getLast? back = 0 := by
  induction back generalizing front with
  | nil => rfl
  | cons d rest ih =>
    have hd : (additions o front.getLast? d).length = 0 := by
      by_cases hf : isOverflow d = true
      · rw [← h front.length d (by simp) hf, provide_additions o front rest d hf]
      · rw [additions_foreign o _ d (by simpa [isOverflow] using hf)]
        rfl
    have hrest := ih _ (show Finished o (front ++ [d] ++ rest) by simpa using h)
    rw [List.getLast?_concat] at hrest
    rw [added, hd, hrest]

theorem provide_of_added {o : Options} (front : Declarations) {back : Declarations}
    (h : added o front.getLast? back = 0) {i : Nat} {d : Declaration} (hd : back[i]? = some d)
    (hf : isOverflow d = true) : (provide o (front ++ back) (front.length + i)).2 = 0 := by
  induction back generalizing front i with
  | nil => cases hd
  | cons e rest ih =>
    rw [added] at h
    cases i with
    | zero =>
      obtain rfl := Option.some.inj hd
      rw [Nat.add_zero, provide_additions o front rest e hf]
      exact Nat.eq_zero_of_add_eq_zero_right h
    | succ i =>
      have := ih (front ++ [e]) (by rw [List.getLast?_concat]; omega) hd
      simpa [Nat.add_assoc, Nat.add_comm 1] using this

theorem finished_iff {o : Options} {list : Declarations} :
    Finished o list ↔ added o none list = 0 := by
  constructor
  · intro h
    exact added_of_finished [] h
  · intro h i d hd hf
    have := provide_of_added [] h hd hf
    simpa using this

/-! ## The groups of a list in the making -/

/-- All that has been put in front of a declaration so far is all that a sweep puts
there, or nothing. -/
structure Partly (o : Options) (previous : Option Declaration) (g : Group) : Prop where
  led : g.Led
  added : g.added = [] ∨ g.added = additions o previous g.own

structure Full (o : Options) (previous : Option Declaration) (g : Group) : Prop where
  led : g.Led
  added : g.added = additions o previous g.own

theorem additions_eq (o : Options) (previous : Option Declaration) {d : Declaration}
    (hf : isOverflow d = true) : additions o previous d =
      if isGuarded previous d then [] else (values o d).map d.fallback := by
  rw [isOverflow] at hf
  rw [additions, hf]
  cases isGuarded previous d <;> rfl

theorem added_grow (o : Options) (previous : Option Declaration) {g : Group} (h : g.Led)
    (hf : isOverflow g.own = true) :
    (g.grow o previous).added = additions o previous g.front ++ g.added := by
  have hproperty : g.front.property = g.own.property := Group.property_of_mem h g.front_mem
  have hfront : isOverflow g.front = true := by rwa [isOverflow, hproperty]
  have hguard : isGuarded previous g.front = isGuarded previous g.own := by
    rw [isGuarded, isGuarded, hproperty]
  rw [additions_eq o previous hfront, hguard, Group.grow, Group.front_fallback h]
  split <;> rfl

theorem full_grow {o : Options} {previous : Option Declaration} {g : Group}
    (hf : isOverflow g.front = true) (h : Partly o previous g) :
    Full o previous (g.grow o previous) := by
  have hown : isOverflow g.own = true := by
    rwa [isOverflow, ← Group.property_of_mem h.led g.front_mem]
  refine ⟨Group.led_grow h.led o previous, ?_⟩
  rw [Group.own_grow, added_grow o previous h.led hown, Group.front]
  rcases h.added with ha | ha
  · rw [ha, first_nil, List.append_nil]
  · rw [ha, additions_first ⟨id, id, id⟩, List.nil_append]

theorem Full.partly {o : Options} {previous : Option Declaration} {g : Group}
    (h : Full o previous g) : Partly o previous g := ⟨h.led, .inr h.added⟩

/-! ## The place of a declaration among its groups -/

def ownIndex : List Group → Nat → Nat
  | [], _ => 0
  | g :: _, 0 => g.added.length
  | g :: rest, k + 1 => g.list.length + ownIndex rest k

theorem index_grow (o : Options) (previous : Option Declaration) (groups : List Group) (i n : Nat)
    {k : Nat} (hk : k < groups.length)
    (hn : (spread (growAt o previous groups i)).length = (spread groups).length + n) :
    ownIndex (growAt o previous groups i) k = movedBy i n (ownIndex groups k) := by
  induction groups generalizing previous i k with
  | nil => cases hk
  | cons g rest ih =>
    cases i with
    | zero =>
      simp only [growAt, spread_cons, List.length_append, Group.length_list] at hn
      rw [growAt, movedBy, if_neg (Nat.not_lt_zero _)]
      cases k with
      | zero => simp only [ownIndex]; omega
      | succ k => simp only [ownIndex, Group.length_list]; omega
    | succ i =>
      rw [growAt] at hn ⊢
      split
      · rename_i hi
        rw [if_pos hi] at hn
        obtain rfl : n = 0 := by omega
        simp [movedBy]
      · rename_i hi
        rw [if_neg hi] at hn
        simp only [spread_cons, List.length_append] at hn
        cases k with
        | zero =>
          have hlt : g.added.length < i + 1 := by omega
          simp [ownIndex, movedBy, hlt]
        | succ k =>
          have := ih (some g.own) (i - g.added.length) (k := k) (by simpa using hk) (by omega)
          simp only [ownIndex, movedBy, Group.length_list, this]
          split <;> split <;> omega

/-- A group is full once its declaration has been provided. -/
theorem full_of_turn {o : Options} {previous : Option Declaration} {groups : List Group} {k : Nat}
    (hp : At (Partly o) previous groups k) (hk : k < groups.length)
    (hf : ∀ d, (spread groups)[ownIndex groups k]? = some d → isOverflow d = true) :
    At (Full o) previous (growAt o previous groups (ownIndex groups k)) k := by
  induction groups generalizing previous k with
  | nil => trivial
  | cons g rest ih =>
    cases k with
    | zero =>
      rw [ownIndex] at hf ⊢
      cases ha : g.added with
      | nil =>
        refine full_grow (hf g.front ?_) hp
        rw [ha, spread_cons, g.list_front]
        rfl
      | cons f fs =>
        have hfull : Full o previous g := ⟨hp.led, hp.added.resolve_left (by simp [ha])⟩
        simpa [growAt, ha, At] using hfull
    | succ k =>
      have hindex : ownIndex (g :: rest) (k + 1) = g.added.length + ownIndex rest k + 1 := by
        rw [ownIndex, Group.length_list]
        omega
      rw [hindex, growAt, if_neg (by omega), Nat.add_sub_cancel_left]
      refine ih hp (by simpa using hk) fun d hd => hf d ?_
      rw [spread_cons, ownIndex, List.getElem?_append_right (by omega), Nat.add_sub_cancel_left]
      exact hd

/-! ## Runs -/

/-- What a run of calls leaves, group by group: a declaration that has had its turn has
all that a sweep puts in front of it. -/
theorem groups_of_calls {o : Options} {groups : List Group} {indices : List Nat}
    (hp : Along (Partly o) none groups) (hon : OnOverflow o (spread groups) indices) :
    ∃ after, provideEach o (spread groups) indices = spread after ∧
      after.map Group.own = groups.map Group.own ∧ Along (Partly o) none after ∧
      ∀ k, k < groups.length → At (Full o) none groups k ∨
        Reached o (spread groups) indices (ownIndex groups k) → At (Full o) none after k := by
  induction indices generalizing groups with
  | nil =>
    exact ⟨groups, rfl, rfl, hp, fun k _ hk => hk.resolve_right id⟩
  | cons i later ih =>
    obtain ⟨⟨d, hd, hf⟩, hlater⟩ := hon
    have hi : ∀ e, (spread groups)[i]? = some e → isOverflow e = true := by
      intro e he
      rw [hd] at he
      rwa [← Option.some.inj he]
    have hstep : (provide o (spread groups) i).1 = spread (growAt o none groups i) := by
      simpa using provide_groups (fun _ _ h => h.led) o [] groups i hp
    have hlength := length_provide o (spread groups) i
    rw [hstep] at hlength hlater
    have hnext : Along (Partly o) none (growAt o none groups i) := fun k =>
      at_grow (P := Partly o) (fun _ _ hf h => (full_grow hf h).partly) hi (hp k)
    obtain ⟨after, hrun, hown, hpartly, hfull⟩ := ih hnext hlater
    refine ⟨after, ?_, hown.trans (own_grow_at o none groups i), hpartly, fun k hk hturn => ?_⟩
    · rw [provideEach, hstep, hrun]
    · have hk' : k < (growAt o none groups i).length := by
        rw [← List.length_map (f := Group.own), own_grow_at, List.length_map]
        exact hk
      apply hfull k hk'
      rcases hturn with hturn | rfl | hturn
      · exact .inl (at_grow (fun _ _ hf h => full_grow hf h.partly) hi hturn)
      · exact .inl (full_of_turn (hp k) hk hi)
      · right
        rw [index_grow o none groups i _ hk hlength, ← hstep]
        exact hturn

theorem spread_full {o : Options} {previous : Option Declaration} {groups : List Group}
    (h : Along (Full o) previous groups) :
    spread groups = provided o previous (groups.map Group.own) := by
  induction groups generalizing previous with
  | nil => rfl
  | cons g rest ih =>
    obtain ⟨hg, hrest⟩ := along_cons.mp h
    rw [spread_cons, List.map_cons, provided, ← hg.added, ← ih hrest, Group.list, List.append_assoc]
    rfl

theorem added_run (o : Options) (previous : Option Declaration) (d : Declaration)
    (run rest : Declarations) (h : ∀ x ∈ run, x.property = d.property) :
    added o previous (run ++ d :: rest) =
      (additions o previous (first d run)).length + added o (some d) rest := by
  have hlength := congrArg List.length (provided_run o previous d run rest h)
  have hrest := length_provided o (some d) rest
  simp only [length_provided, List.length_append, List.length_cons] at hlength
  omega

theorem full_of_added {o : Options} {previous : Option Declaration} {groups : List Group}
    (hp : Along (Partly o) previous groups) (h : added o previous (spread groups) = 0) :
    Along (Full o) previous groups := by
  induction groups generalizing previous with
  | nil => exact fun _ => trivial
  | cons g rest ih =>
    obtain ⟨hg, hrest⟩ := along_cons.mp hp
    have hrun : ∀ x ∈ g.added, x.property = g.own.property := fun x hx =>
      Group.property_of_mem hg.led (List.mem_append_left _ hx)
    rw [spread_cons, Group.list, List.append_assoc, List.singleton_append, added_run o _ _ _ _ hrun] at h
    refine along_cons.mpr ⟨⟨hg.led, ?_⟩, ih hrest (by omega)⟩
    rcases hg.added with ha | ha
    · have hnone : additions o previous (first g.own g.added) = [] :=
        List.eq_nil_of_length_eq_zero (by omega)
      rw [ha, first_nil] at hnone
      rw [ha, hnone]
    · exact ha

theorem index_alone (list : Declarations) {k : Nat} (hk : k < list.length) :
    ownIndex (alone list) k = k := by
  induction list generalizing k with
  | nil => cases hk
  | cons d rest ih =>
    cases k with
    | zero => rfl
    | succ k =>
      have := ih (k := k) (by simpa using hk)
      rw [alone, List.map_cons, ownIndex, ← alone, this, Nat.add_comm]
      rfl

theorem partly_alone (o : Options) (previous : Option Declaration) (list : Declarations) :
    Along (Partly o) previous (alone list) := by
  induction list generalizing previous with
  | nil => exact fun _ => trivial
  | cons d rest ih => exact along_cons.mpr ⟨⟨nofun, .inl rfl⟩, ih _⟩

theorem full_of_overflow {o : Options} {groups : List Group} (hp : Along (Partly o) none groups)
    (h : ∀ k g, groups[k]? = some g → isOverflow g.own = true → At (Full o) none groups k) :
    Along (Full o) none groups := by
  intro k
  rw [at_iff]
  intro g hg
  by_cases hf : isOverflow g.own = true
  · exact at_iff.mp (h k g hg hf) g hg
  · have hpart := at_iff.mp (hp k) g hg
    have hnone := fun previous => additions_foreign o previous g.own (by simpa [isOverflow] using hf)
    refine ⟨hpart.led, ?_⟩
    rcases hpart.added with ha | ha
    · rw [ha, hnone]
    · exact ha

/-- Whatever the order, the list with nothing left to do is the one that a sweep gives,
and if each declaration has had its turn, nothing is left to do. -/
theorem provide_any_order (o : Options) (list : Declarations) (indices : List Nat)
    (hon : OnOverflow o list indices) :
    (Finished o (provideEach o list indices) → provideEach o list indices = (sweep o list).1) ∧
    ((∀ k d, list[k]? = some d → isOverflow d = true → Reached o list indices k) →
      Finished o (provideEach o list indices)) := by
  have hstart := spread_alone list
  obtain ⟨after, hrun, hown, hpartly, hfull⟩ :=
    groups_of_calls (partly_alone o none list) (by rwa [hstart])
  rw [own_alone] at hown
  rw [hstart] at hrun hfull
  have hsweep : Along (Full o) none after → provideEach o list indices = (sweep o list).1 := by
    intro h
    rw [hrun, spread_full h, hown, sweep_local]
  constructor
  · intro h
    rw [hrun] at h
    exact hsweep (full_of_added hpartly (finished_iff.mp h))
  · intro hturn
    have hall : Along (Full o) none after := by
      refine full_of_overflow hpartly fun k g hg hf => ?_
      have hd : list[k]? = some g.own := by rw [← hown, List.getElem?_map, hg]; rfl
      have hk : k < list.length := (List.getElem?_eq_some_iff.mp hd).1
      refine hfull k (by simpa [alone] using hk) (.inr ?_)
      rw [index_alone list hk]
      exact hturn k g.own hd hf
    rw [finished_iff, hsweep hall, sweep_local]
    exact added_provided ⟨id, id, id⟩ none list

/-- A pair and a single keyword behind it, the last one first, with a turn of two of the
declarations that have been added. -/
theorem provide_any_order_backwards :
    let list := [Declaration.fresh "overflow".toList "clip overlay".toList true,
      Declaration.fresh "overflow-x".toList "overlay".toList false]
    OnOverflow .all list [1, 1, 0, 1] ∧ Finished .all (provideEach .all list [1, 1, 0, 1]) ∧
      provideEach .all list [1, 1, 0, 1] = (sweep .all list).1 ∧
      (provideEach .all list [1, 1, 0, 1]).length = 5 := by
  intro list
  have hon : OnOverflow .all list [1, 1, 0, 1] :=
    ⟨⟨_, rfl, rfl⟩, ⟨_, rfl, rfl⟩, ⟨_, rfl, rfl⟩, ⟨_, rfl, rfl⟩, trivial⟩
  have hturn : ∀ k d, list[k]? = some d → isOverflow d = true → Reached .all list [1, 1, 0, 1] k := by
    intro k d hd _
    match k with
    | 0 => exact .inr (.inr (.inl rfl))
    | 1 => exact .inl rfl
    | k + 2 => cases hd
  obtain ⟨hlist, hfinished⟩ := provide_any_order .all list [1, 1, 0, 1] hon
  exact ⟨hon, hfinished hturn, hlist (hfinished hturn), by decide⟩

end Fallback
end CssFallback
