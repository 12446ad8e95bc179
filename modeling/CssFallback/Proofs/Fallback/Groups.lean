import CssFallback.Proofs.Fallback.Absorption

/-!
# What has been put in front of a declaration

A list that has grown is the list as it was, with a run of fallbacks in front of each
declaration. Whatever index of it is provided, only the first declaration of a run can
get more, and then the run of the same declaration grows.
-/

set_option autoImplicit false

namespace CssFallback

namespace Fallback

/-- A declaration and what has been put in front of it. -/
structure Group where
  added : Declarations
  own : Declaration
  deriving DecidableEq

namespace Group

def list (g : Group) : Declarations := g.added ++ [g.own]

def front (g : Group) : Declaration := first g.own g.added

def Led (g : Group) : Prop := ∀ f ∈ g.added, ∃ v, f = g.own.fallback v

def grow (o : Options) (previous : Option Declaration) (g : Group) : Group :=
  if isGuarded previous g.own then g
  else ⟨(values o g.front).map g.own.fallback ++ g.added, g.own⟩

theorem own_grow (o : Options) (previous : Option Declaration) (g : Group) :
    (g.grow o previous).own = g.own := by
  rw [grow]
  split <;> rfl

theorem list_front (g : Group) : g.list = g.front :: g.list.tail := by
  rw [list, front]
  cases g.added <;> rfl

theorem length_list (g : Group) : g.list.length = g.added.length + 1 := by
  simp [list]

theorem property_of_mem {g : Group} (h : g.Led) {d : Declaration} (hd : d ∈ g.list) :
    d.property = g.own.property := by
  rcases List.mem_append.mp hd with hd | hd
  · obtain ⟨v, rfl⟩ := h d hd
    rfl
  · rw [List.mem_singleton.mp hd]

theorem front_mem (g : Group) : g.front ∈ g.list := by
  rw [list_front]
  exact List.mem_cons_self

theorem front_fallback {g : Group} (h : g.Led) : g.front.fallback = g.own.fallback := by
  rcases List.mem_append.mp g.front_mem with hd | hd
  · obtain ⟨v, hv⟩ := h g.front hd
    rw [hv]
    exact funext (Declaration.fallback_fallback g.own v)
  · rw [List.mem_singleton.mp hd]

theorem led_grow {g : Group} (h : g.Led) (o : Options) (previous : Option Declaration) :
    (g.grow o previous).Led := by
  rw [grow]
  split
  · exact h
  · intro f hf
    rcases List.mem_append.mp hf with hf | hf
    · obtain ⟨v, -, rfl⟩ := List.mem_map.mp hf
      exact ⟨v, rfl⟩
    · exact h f hf

end Group

def spread (groups : List Group) : Declarations := groups.flatMap Group.list

theorem spread_cons (g : Group) (groups : List Group) :
    spread (g :: groups) = g.list ++ spread groups := List.flatMap_cons

def alone (list : Declarations) : List Group := list.map fun d => ⟨[], d⟩

theorem spread_alone (list : Declarations) : spread (alone list) = list := by
  induction list with
  | nil => rfl
  | cons d rest ih => rw [alone, List.map_cons, spread_cons, ← alone, ih]; rfl

theorem own_alone (list : Declarations) : (alone list).map Group.own = list := by
  simp [alone, Function.comp_def]

def growAt (o : Options) : Option Declaration → List Group → Nat → List Group
  | _, [], _ => []
  | previous, g :: rest, 0 => g.grow o previous :: rest
  | _, g :: rest, i + 1 =>
    if i < g.added.length then g :: rest
    else g :: growAt o (some g.own) rest (i - g.added.length)

theorem own_grow_at (o : Options) (previous : Option Declaration) (groups : List Group) (i : Nat) :
    (growAt o previous groups i).map Group.own = groups.map Group.own := by
  induction groups generalizing previous i with
  | nil => rfl
  | cons g rest ih =>
    cases i with
    | zero => simp [growAt, Group.own_grow]
    | succ i =>
      rw [growAt]
      split
      · rfl
      · simp [ih]

/-! ## Properties of groups -/

/-- The group at a place in the list has a property, which may depend on the declaration
that was in front of its own. -/
def At (P : Option Declaration → Group → Prop) : Option Declaration → List Group → Nat → Prop
  | _, [], _ => True
  | previous, g :: _, 0 => P previous g
  | _, g :: rest, k + 1 => At P (some g.own) rest k

def Along (P : Option Declaration → Group → Prop) (previous : Option Declaration)
    (groups : List Group) : Prop := ∀ k, At P previous groups k

theorem along_cons {P : Option Declaration → Group → Prop} {previous : Option Declaration} {g : Group}
    {rest : List Group} : Along P previous (g :: rest) ↔ P previous g ∧ Along P (some g.own) rest := by
  constructor
  · intro h
    exact ⟨h 0, fun k => h (k + 1)⟩
  · rintro ⟨hg, hrest⟩ k
    cases k with
    | zero => exact hg
    | succ k => exact hrest k

theorem at_grow {P : Option Declaration → Group → Prop} {Q : Declaration → Prop} {o : Options}
    (hP : ∀ previous g, Q g.front → P previous g → P previous (g.grow o previous))
    {previous : Option Declaration} {groups : List Group} {i k : Nat}
    (hi : ∀ d, (spread groups)[i]? = some d → Q d) (h : At P previous groups k) :
    At P previous (growAt o previous groups i) k := by
  induction groups generalizing previous i k with
  | nil => exact h
  | cons g rest ih =>
    cases i with
    | zero =>
      cases k with
      | zero =>
        refine hP previous g (hi g.front ?_) h
        rw [spread_cons, g.list_front]
        rfl
      | succ k =>
        rw [growAt, At, Group.own_grow]
        exact h
    | succ i =>
      rw [growAt]
      split
      · exact h
      · rename_i hlt
        cases k with
        | zero => exact h
        | succ k =>
          refine ih (fun d hd => hi d ?_) h
          rw [spread_cons, List.getElem?_append_right (by rw [g.length_list]; omega), g.length_list]
          rwa [show i + 1 - (g.added.length + 1) = i - g.added.length by omega]

theorem at_iff {P : Option Declaration → Group → Prop} {previous : Option Declaration}
    {groups : List Group} {k : Nat} : At P previous groups k ↔ ∀ g, groups[k]? = some g →
      P (if k = 0 then previous else Declarations.previous? (groups.map Group.own) k) g := by
  induction groups generalizing previous k with
  | nil => simp [At]
  | cons g rest ih =>
    cases k with
    | zero => simp [At]
    | succ k =>
      rw [At, ih]
      cases k <;> simp [Declarations.previous?]

/-! ## Providing an index -/

theorem provide_outside (o : Options) {list : Declarations} {index : Nat} (h : list.length ≤ index) :
    provide o list index = (list, 0) := by
  rw [provide, List.getElem?_eq_none h]
  split <;> rfl

theorem provide_guarded (o : Options) {list : Declarations} {index : Nat} {e d : Declaration}
    (he : list[index]? = some e) (hd : list[index + 1]? = some d) (h : e.property = d.property) :
    provide o list (index + 1) = (list, 0) := by
  have hguard : (list.previous? (index + 1)).any (fun p => p.property == d.property) = true := by
    simp [Declarations.previous?, he, h]
  simp only [provide, hd, hguard, if_true]
  split <;> rfl

theorem get_groups (front : Declarations) (g : Group) (rest : List Group) {i : Nat}
    (h : i ≤ g.added.length) : ∃ d ∈ g.list, (front ++ spread (g :: rest))[front.length + i]? = some d := by
  have hi : i < g.list.length := by
    rw [g.length_list]
    omega
  refine ⟨g.list[i], List.getElem_mem hi, ?_⟩
  rw [List.getElem?_append_right (Nat.le_add_right _ _), Nat.add_sub_cancel_left, spread_cons,
    List.getElem?_append_left hi, List.getElem?_eq_getElem hi]

/-- Providing an index lets a group grow. -/
theorem provide_groups {P : Option Declaration → Group → Prop}
    (hP : ∀ previous g, P previous g → g.Led) (o : Options) (front : Declarations)
    (groups : List Group) (i : Nat) (h : Along P front.getLast? groups) :
    (provide o (front ++ spread groups) (front.length + i)).1 =
      front ++ spread (growAt o front.getLast? groups i) := by
  induction groups generalizing front i with
  | nil => rw [provide_outside o (by simp [spread])]; rfl
  | cons g rest ih =>
    obtain ⟨hg, hrest⟩ := along_cons.mp h
    have hg := hP _ _ hg
    cases i with
    | zero =>
      have hguard : isGuarded front.getLast? g.front = isGuarded front.getLast? g.own := by
        rw [isGuarded, isGuarded, Group.property_of_mem hg g.front_mem]
      have hlocal := provide_local o front (g.list.tail ++ spread rest) g.front
      rw [← List.cons_append, ← g.list_front, ← spread_cons, hguard, Group.front_fallback hg] at hlocal
      rw [Nat.add_zero, hlocal, growAt, Group.grow]
      split
      · rfl
      · simp [spread_cons, Group.list]
    | succ i =>
      rw [growAt]
      split
      · rename_i hi
        obtain ⟨e, he, hei⟩ := get_groups front g rest (Nat.le_of_lt hi)
        obtain ⟨d, hd, hdi⟩ := get_groups front g rest hi
        have hsame : e.property = d.property := by
          rw [Group.property_of_mem hg he, Group.property_of_mem hg hd]
        rw [← Nat.add_assoc, provide_guarded o hei hdi hsame]
      · have hlast : (front ++ g.list).getLast? = some g.own := by
          rw [Group.list, ← List.append_assoc, List.getLast?_concat]
        have hindex : front.length + (i + 1) = (front ++ g.list).length + (i - g.added.length) := by
          rw [List.length_append, g.length_list]
          omega
        rw [spread_cons, spread_cons, ← List.append_assoc, ← List.append_assoc, hindex,
          ih (front ++ g.list) _ (by rwa [hlast]), hlast]

theorem length_provide (o : Options) (list : Declarations) (index : Nat) :
    (provide o list index).1.length = list.length + (provide o list index).2 := by
  by_cases hi : index < list.length
  · obtain ⟨front, d, back, rfl, rfl⟩ : ∃ front d back, list = front ++ d :: back ∧
        front.length = index :=
      ⟨list.take index, list[index], list.drop (index + 1), by simp, by simp; omega⟩
    rw [provide_local]
    split
    · rfl
    · simp
      omega
  · rw [provide_outside o (by omega)]
    rfl

end Fallback
end CssFallback
