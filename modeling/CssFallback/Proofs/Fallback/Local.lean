import CssFallback.Fallback
import CssFallback.Proofs.Declaration.Separator

/-!
# The fallbacks of a list, declaration by declaration

A sweep works on a list that grows under it. Its result is nevertheless put together
locally: in front of each declaration stand the fallbacks that the declaration and the
options give, unless the declaration in front of it sets the same property.
-/

set_option autoImplicit false

namespace CssFallback

namespace Declaration

theorem fallback_fallback (d : Declaration) (v w : Text) :
    (d.fallback v).fallback w = d.fallback w := by
  simp [fallback, Separator.plain_plain]

end Declaration

namespace Fallback

def stageValues (o : Options) : List Keyword → List ValuePart → List Text
  | [], _ => []
  | k :: later, parts =>
    match replacement? o k with
    | none => stageValues o later parts
    | some word =>
      if ValuePart.hasWord k.text parts then
        let replaced := ValuePart.replaceWord k.text word parts
        stageValues o later replaced ++ [ValuePart.textOf replaced]
      else stageValues o later parts

/-- The values of the fallbacks of a declaration, in the order in which they stand. -/
def values (o : Options) (d : Declaration) : List Text :=
  if o.addsNothing then []
  else
    match modernKeyword? d.value with
    | some k => (replacement? o k).toList
    | none =>
      if isHandledPair o d.property (valueParts d.value) then
        stageValues o stages (valueParts d.value)
      else []

def isGuarded (previous : Option Declaration) (d : Declaration) : Bool :=
  previous.any fun p => p.property == d.property

/-- The declarations that a sweep puts in front of a declaration. -/
def additions (o : Options) (previous : Option Declaration) (d : Declaration) : Declarations :=
  if (Property.ofName? d.property).isSome && !isGuarded previous d then
    (values o d).map d.fallback
  else []

/-- A list with its fallbacks, where `previous` stands in front of it. -/
def provided (o : Options) : Option Declaration → Declarations → Declarations
  | _, [] => []
  | previous, d :: rest => additions o previous d ++ d :: provided o (some d) rest

def added (o : Options) : Option Declaration → Declarations → Nat
  | _, [] => 0
  | previous, d :: rest => (additions o previous d).length + added o (some d) rest

def considered (list : Declarations) : Nat :=
  list.countP fun d => (Property.ofName? d.property).isSome

theorem provide_word (o : Options) (front back : Declarations) (d : Declaration) (k : Keyword) :
    provideWord o (front ++ d :: back) front.length k =
      (front ++ (replacement? o k).toList.map d.fallback ++ d :: back,
        (replacement? o k).toList.length) := by
  rw [provideWord]
  cases replacement? o k with
  | none => simp
  | some word => simp [Declarations.add_fallback_append]

theorem provide_stages (o : Options) (ks : List Keyword) (front back : Declarations)
    (e : Declaration) (parts : List ValuePart) :
    provideStages o front.length ks (front ++ e :: back) parts =
      (front ++ (stageValues o ks parts).map e.fallback ++ e :: back,
        (stageValues o ks parts).length) := by
  induction ks generalizing e back parts with
  | nil => simp [provideStages, stageValues]
  | cons k later ih =>
    rw [provideStages, stageValues]
    cases replacement? o k with
    | none => exact ih back e parts
    | some word =>
      by_cases hw : ValuePart.hasWord k.text parts
      · have he : (e.fallback (ValuePart.textOf (ValuePart.replaceWord k.text word parts))).fallback
            = e.fallback := by
          funext v
          exact Declaration.fallback_fallback e _ v
        simp [hw, Declarations.add_fallback_append, ih, he]
      · simp [hw, ih]

/-- What is done with one declaration depends on the list only through the declaration
in front of it. -/
theorem provide_local (o : Options) (front back : Declarations) (d : Declaration) :
    provide o (front ++ d :: back) front.length =
      if isGuarded front.getLast? d then (front ++ d :: back, 0)
      else (front ++ (values o d).map d.fallback ++ d :: back, (values o d).length) := by
  have hd : (front ++ d :: back)[front.length]? = some d := by simp
  rw [provide, hd, Declarations.previous_append, values, isGuarded]
  by_cases hn : o.addsNothing
  · simp [hn]
  by_cases hg : front.getLast?.any fun p => p.property == d.property
  · simp [hn, hg]
  cases hk : modernKeyword? d.value with
  | some k => simp [hn, hg, hk, provide_word]
  | none =>
    by_cases hp : isHandledPair o d.property (valueParts d.value)
    · simp [hn, hg, hk, hp, provide_stages]
    · simp [hn, hg, hk, hp]

theorem provide_additions (o : Options) (front back : Declarations) (d : Declaration)
    (hf : (Property.ofName? d.property).isSome = true) :
    provide o (front ++ d :: back) front.length =
      (front ++ additions o front.getLast? d ++ d :: back,
        (additions o front.getLast? d).length) := by
  rw [provide_local, additions]
  by_cases hg : isGuarded front.getLast? d <;> simp [hf, hg]

theorem action_none {property : Text} (h : (Property.ofName? property).isSome = false) :
    action? property = none := by
  rw [action?]
  cases hp : Property.ofName? property with
  | none => rfl
  | some p => simp [hp] at h

theorem action_provide {property : Text} (h : (Property.ofName? property).isSome = true) :
    action? property = some provide := by
  obtain ⟨p, hp⟩ := Option.isSome_iff_exists.mp h
  simp [action?, hp]

theorem additions_foreign (o : Options) (previous : Option Declaration) (d : Declaration)
    (h : (Property.ofName? d.property).isSome = false) : additions o previous d = [] := by
  simp [additions, h]

theorem fallback_of_mem {o : Options} {previous : Option Declaration} {d f : Declaration}
    (h : f ∈ additions o previous d) : ∃ v, f = d.fallback v := by
  rw [additions] at h
  split at h
  · obtain ⟨v, -, rfl⟩ := List.mem_map.mp h
    exact ⟨v, rfl⟩
  · cases h

theorem mem_additions {o : Options} {previous : Option Declaration} {d f : Declaration}
    (h : f ∈ additions o previous d) : f.property = d.property ∧ f.important = false := by
  obtain ⟨v, rfl⟩ := fallback_of_mem h
  exact ⟨rfl, rfl⟩

/-- The loop invariant: the front is done and stays, and the declaration in front of the
index is the one that precedes it in the list as it was. -/
theorem sweep_from_local (o : Options) (left : Nat) (front back : Declarations) (tally : Tally)
    (h : back.length ≤ left) :
    sweepFrom o left (front ++ back) front.length tally =
      (front ++ provided o front.getLast? back,
        tally.add ⟨0, considered back, added o front.getLast? back⟩) := by
  induction left generalizing front back tally with
  | zero =>
    obtain rfl : back = [] := List.length_eq_zero_iff.mp (by omega)
    simp [sweepFrom, provided, considered, added, Tally.add]
  | succ left ih =>
    cases back with
    | nil => simp [sweepFrom, provided, considered, added, Tally.add]
    | cons d rest =>
      have hd : (front ++ d :: rest)[front.length]? = some d := by simp
      have hlen : rest.length ≤ left := by simpa using h
      rw [sweepFrom, hd, provided, added, considered, List.countP_cons]
      by_cases hf : (Property.ofName? d.property).isSome = true
      · have hnext := ih (front ++ additions o front.getLast? d ++ [d]) rest
          (tally.add ⟨0, 1, (additions o front.getLast? d).length⟩) hlen
        rw [List.getLast?_concat] at hnext
        simp only [action_provide hf, provide_additions o front rest d hf, hf, if_true]
        rw [show front ++ additions o front.getLast? d ++ d :: rest =
            front ++ additions o front.getLast? d ++ [d] ++ rest by simp,
          show front.length + (additions o front.getLast? d).length + 1 =
            (front ++ additions o front.getLast? d ++ [d]).length by simp [Nat.add_assoc], hnext]
        simp only [Tally.add, considered, List.append_assoc, List.singleton_append, Nat.add_zero,
          Nat.add_assoc, Nat.add_comm 1]
      · have hf' : (Property.ofName? d.property).isSome = false := by simpa using hf
        have hnext := ih (front ++ [d]) rest tally hlen
        rw [List.getLast?_concat] at hnext
        simp only [action_none hf', additions_foreign o _ d hf', hf', List.nil_append,
          List.length_nil, Nat.zero_add, Bool.false_eq_true, if_false, Nat.add_zero]
        simpa [considered] using hnext

theorem sweep_local (o : Options) (list : Declarations) :
    sweep o list = (provided o none list, ⟨0, considered list, added o none list⟩) := by
  have h := sweep_from_local o list.length [] list .zero (Nat.le_refl _)
  simpa [sweep, Tally.add, Tally.zero] using h

theorem length_provided (o : Options) (previous : Option Declaration) (list : Declarations) :
    (provided o previous list).length = list.length + added o previous list := by
  induction list generalizing previous with
  | nil => rfl
  | cons d rest ih =>
    simp only [provided, added, List.length_append, List.length_cons, ih]
    omega

end Fallback

/-!
## The cascade of a block

An engine takes into account the declarations that it understands. Each sets some slots,
and a slot gets its value from the last important declaration that sets it, or else from
the last one. An engine that understands the declarations that were given fallbacks sees
no difference: a fallback sets what its declaration sets, in front of it, and is never
important.
-/

structure Engine (Slot : Type) where
  understands : (property value : Text) → Bool
  sets : (property : Text) → Slot → Bool

namespace Engine
variable {Slot : Type} (e : Engine Slot) (slot : Slot)

def counts (d : Declaration) : Bool := e.understands d.property d.value && e.sets d.property slot

def lastImportant (list : Declarations) : Option Declaration :=
  (list.filter fun d => e.counts slot d && d.important).getLast?

def last (list : Declarations) : Option Declaration := (list.filter (e.counts slot)).getLast?

/-- The declaration that the slot gets its value from. -/
def winner (list : Declarations) : Option Declaration :=
  (e.lastImportant slot list).or (e.last slot list)

end Engine

namespace Fallback

/-- The engine understands every declaration that a sweep puts something in front of. -/
def Understood {Slot : Type} (e : Engine Slot) (o : Options) :
    Option Declaration → Declarations → Prop
  | _, [] => True
  | previous, d :: rest =>
    (additions o previous d ≠ [] → e.understands d.property d.value = true) ∧
      Understood e o (some d) rest

section
variable {Slot : Type} (e : Engine Slot) (slot : Slot) (o : Options)

theorem important_unchanged (previous : Option Declaration) (list : Declarations) :
    e.lastImportant slot (provided o previous list) = e.lastImportant slot list := by
  rw [Engine.lastImportant, Engine.lastImportant]
  congr 1
  induction list generalizing previous with
  | nil => rfl
  | cons d rest ih =>
    have hnone : (additions o previous d).filter (fun d => e.counts slot d && d.important) = [] := by
      rw [List.filter_eq_nil_iff]
      intro f hf
      simp [(mem_additions hf).2]
    rw [provided, List.filter_append, hnone, List.nil_append, List.filter_cons, List.filter_cons, ih]

theorem last_additions (previous : Option Declaration) (d : Declaration) (rest : Declarations)
    (h : additions o previous d ≠ [] → e.understands d.property d.value = true) :
    e.last slot (additions o previous d ++ d :: rest) = e.last slot (d :: rest) := by
  rw [Engine.last, Engine.last, List.filter_append]
  by_cases hd : e.counts slot d = true
  · rw [List.getLast?_append]
    simp [hd, List.getLast?_cons]
  · have hnone : (additions o previous d).filter (e.counts slot) = [] := by
      rw [List.filter_eq_nil_iff]
      intro f hf
      have hu := h (List.ne_nil_of_mem hf)
      have hs : e.sets d.property slot = false := by simpa [Engine.counts, hu] using hd
      simp [Engine.counts, (mem_additions hf).1, hs]
    rw [hnone, List.nil_append]

theorem last_cons (d : Declaration) (list : Declarations) :
    e.last slot (d :: list) = (e.last slot list).or (if e.counts slot d then some d else none) := by
  rw [Engine.last, Engine.last, List.filter_cons]
  by_cases hd : e.counts slot d = true
  · simp [hd, List.getLast?_cons]
  · simp [hd]

theorem last_unchanged (previous : Option Declaration) (list : Declarations)
    (h : Understood e o previous list) :
    e.last slot (provided o previous list) = e.last slot list := by
  induction list generalizing previous with
  | nil => rfl
  | cons d rest ih =>
    rw [provided, last_additions e slot o previous d _ h.1, last_cons, last_cons, ih _ h.2]

end

/-- An engine that understands the declarations that are given fallbacks sees the same
winners after a sweep, slot by slot. -/
theorem cascade_unchanged {Slot : Type} (e : Engine Slot) (o : Options) (list : Declarations)
    (h : Understood e o none list) :
    (sweep o list).1 = provided o none list ∧
      ∀ slot, e.winner slot (sweep o list).1 = e.winner slot list := by
  have hs : (sweep o list).1 = provided o none list := by rw [sweep_local]
  refine ⟨hs, fun slot => ?_⟩
  rw [hs, Engine.winner, Engine.winner, important_unchanged, last_unchanged e slot o none list h]

/-- The engine knows the pair but none of its fallbacks, and `overflow` sets two slots. -/
theorem cascade_unchanged_pair :
    let e : Engine Bool := ⟨fun _ v => v == "clip overlay".toList, fun p _ => p == "overflow".toList⟩
    let list := [Declaration.fresh "color".toList "red".toList false,
      Declaration.fresh "overflow".toList "clip overlay".toList true]
    Understood e .all none list ∧ (sweep .all list).1.length = 4 ∧
      ∀ slot, e.winner slot (sweep .all list).1 = list.getLast? := by
  intro e list
  have hu : Understood e .all none list := ⟨by decide, by decide, trivial⟩
  refine ⟨hu, by decide, fun slot => ?_⟩
  rw [(cascade_unchanged e .all list hu).2 slot]
  cases slot <;> decide

end Fallback

end CssFallback
