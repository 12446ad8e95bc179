import CssFallback.Proofs.Command.Merging

/-!
# Options of a file and of flags together

What is wrong with a file of options is reported in a fixed order: that it holds no object,
that one of its fields has been removed, and only then that a switch is no boolean. A flag
hides what the file says about its switch, and nothing else.
-/

set_option autoImplicit false

namespace CssFallback

namespace Json

/-- The fields of a file of options. No file, and `null` in it, give none. -/
def fieldsOf? : Option Json → Option Fields
  | none => some []
  | some .null => some []
  | some (.object fields) => some fields
  | some _ => none

namespace Fields

def HasRemoved (fields : Fields) : Prop :=
  fields.contains "add".toList = true ∨ fields.contains "upgradeHiddenToClip".toList = true

def Wrong (fields : Fields) (s : Switch) (value : Json) : Prop :=
  fields.find? s.name = some value ∧ ∀ b, value ≠ .bool b

def setting (fields : Fields) (s : Switch) : Bool :=
  match fields.find? s.name with
  | some (.bool value) => value
  | _ => true

end Fields
end Json

/-! ## Fields -/

namespace Switch

theorem all_sorted : all.Pairwise fun s t => Json.precedes s.name t.name = true ∧
    Json.precedes t.name s.name = false := by decide

theorem not_before_itself (s : Switch) : Json.precedes s.name s.name = false := by
  cases s <;> decide

end Switch

namespace Options
variable {fields : Json.Fields}

def wrong? (fields : Json.Fields) (s : Switch) : Option Json :=
  match fields.find? s.name with
  | none => none
  | some (.bool _) => none
  | some value => some value

theorem wrong_iff {s : Switch} {value : Json} : wrong? fields s = some value ↔ fields.Wrong s value := by
  rw [wrong?, Json.Fields.Wrong]
  cases fields.find? s.name with
  | none => simp
  | some found =>
    cases found <;> simp <;> rintro rfl <;> simp

theorem first_bad_iff {value : Json} : firstBad? fields = some value ↔
    ∃ s, fields.Wrong s value ∧
      ∀ t other, fields.Wrong t other → Json.precedes t.name s.name = false := by
  rw [show firstBad? fields = Switch.all.findSome? (wrong? fields) from rfl,
    List.findSome?_eq_some_iff]
  constructor
  · rintro ⟨front, s, back, hall, hs, hfront⟩
    have hsorted := Switch.all_sorted
    rw [hall, List.pairwise_append, List.pairwise_cons] at hsorted
    refine ⟨s, wrong_iff.mp hs, fun t other ht => ?_⟩
    have hmem := t.mem_all
    rw [hall, List.mem_append, List.mem_cons] at hmem
    rcases hmem with hmem | rfl | hmem
    · have hnone := hfront t hmem
      rw [wrong_iff.mpr ht] at hnone
      cases hnone
    · exact t.not_before_itself
    · exact (hsorted.2.1.1 t hmem).2
  · rintro ⟨s, hs, hfirst⟩
    obtain ⟨front, back, hall⟩ := List.append_of_mem s.mem_all
    have hsorted := Switch.all_sorted
    rw [hall, List.pairwise_append] at hsorted
    refine ⟨front, s, back, hall, wrong_iff.mpr hs, fun t ht => ?_⟩
    rw [Option.eq_none_iff_forall_ne_some]
    intro other hother
    have hlater := hfirst t other (wrong_iff.mp hother)
    rw [(hsorted.2.2 t ht s (by simp)).1] at hlater
    cases hlater

theorem removed_iff : removedNames.any fields.contains = true ↔ fields.HasRemoved := by
  simp [removedNames, Json.Fields.HasRemoved]

theorem removed_congr {other : Json.Fields}
    (h : ∀ name ∈ removedNames, fields.find? name = other.find? name) :
    removedNames.any fields.contains = removedNames.any other.contains := by
  rw [Bool.eq_iff_iff, List.any_eq_true, List.any_eq_true]
  refine exists_congr fun name => and_congr_right fun hname => ?_
  rw [Json.Fields.contains, Json.Fields.contains, h name hname]

theorem of_fields_removed : ofFields fields = .error .removed ↔ fields.HasRemoved := by
  rw [ofFields, ← removed_iff]
  split
  · simp [*]
  · split <;> simp [*]

theorem of_fields_not_boolean {value : Json} : ofFields fields = .error (.notABoolean value) ↔
    ¬ fields.HasRemoved ∧ firstBad? fields = some value := by
  rw [ofFields, ← removed_iff]
  split
  · simp [*]
  · split <;> simp [*]

theorem of_fields_error {fault : Fault} (h : ofFields fields = .error fault) :
    fault = .removed ∨ ∃ value, fault = .notABoolean value := by
  rw [ofFields] at h
  (repeat' split at h) <;> cases h
  · exact .inl rfl
  · exact .inr ⟨_, rfl⟩

theorem of_fields_congr {other : Json.Fields}
    (hremoved : ∀ name ∈ removedNames, fields.find? name = other.find? name)
    (hswitch : ∀ s : Switch, fields.find? s.name = other.find? s.name) :
    ofFields fields = ofFields other := by
  rw [ofFields, ofFields, removed_congr hremoved]
  simp only [firstBad?, hswitch]

end Options

theorem Json.Fields.setting_iff {fields : Fields} {s : Switch} {b : Bool} :
    (fields.find? s.name).getD (.bool true) = .bool b ↔
      (∀ value, ¬ fields.Wrong s value) ∧ fields.setting s = b := by
  rw [setting]
  simp only [Wrong]
  cases fields.find? s.name with
  | none => simp
  | some found => cases found <;> simp

theorem Json.Fields.no_removed_iff {fields : Fields} :
    ¬ fields.HasRemoved ↔ ∀ name ∈ Options.removedNames, fields.find? name = none := by
  simp [HasRemoved, contains, Options.removedNames]

namespace Request
variable (r : Request)

/-- The options that come of a file of options and of the flags. -/
def optionsFrom (config : Option Json) : Except Failure Options :=
  match r.merged? config with
  | none => .error .configNotAnObject
  | some fields => (Options.ofJson (.object fields)).mapError .badOptions

def Wrong (fields : Json.Fields) (s : Switch) (value : Json) : Prop :=
  r.limits.isOn s = true ∧ fields.Wrong s value

theorem options_from_file (files : Files) :
    r.options files = (r.loadConfig files).bind r.optionsFrom := by
  rw [options_eq]
  rfl

theorem options_from_fields (config : Option Json) : r.optionsFrom config =
    match Json.fieldsOf? config with
    | none => .error .configNotAnObject
    | some fields =>
      (Options.ofFields (Json.Fields.insertAll fields r.overrides)).mapError .badOptions := by
  rcases config with _ | config
  · rfl
  · cases config <;> rfl

variable (fields : Json.Fields)

theorem has_removed_merged :
    (Json.Fields.insertAll fields r.overrides).HasRemoved ↔ fields.HasRemoved := by
  rw [← Options.removed_iff, ← Options.removed_iff,
    Options.removed_congr fun name hname => r.find_removed fields hname]

theorem wrong_merged {s : Switch} {value : Json} :
    (Json.Fields.insertAll fields r.overrides).Wrong s value ↔ r.Wrong fields s value := by
  rw [Json.Fields.Wrong, find_switch, Wrong, Json.Fields.Wrong]
  cases r.limits.isOn s with
  | true => simp
  | false =>
    simp only [Bool.false_eq_true, if_false, false_and, iff_false]
    rintro ⟨hfalse, hother⟩
    exact hother false (Option.some.inj hfalse).symm

theorem merges_iff_setting {o : Options} : r.Merges fields o ↔
    ¬ fields.HasRemoved ∧ (∀ s value, ¬ r.Wrong fields s value) ∧
      ∀ s, o.isOn s = (r.limits.isOn s && fields.setting s) := by
  constructor
  · intro h
    refine ⟨Json.Fields.no_removed_iff.mpr h.removed, ?_, fun s => ?_⟩
    · rintro s value ⟨hs, hwrong⟩
      exact (Json.Fields.setting_iff.mp (h.given s hs)).1 value hwrong
    · cases hs : r.limits.isOn s with
      | false => exact h.forced s hs
      | true => exact (Json.Fields.setting_iff.mp (h.given s hs)).2.symm
  · rintro ⟨hremoved, hwrong, hset⟩
    refine ⟨Json.Fields.no_removed_iff.mp hremoved, fun s hs => ?_, fun s hs => ?_⟩
    · rw [hset s, hs, Bool.false_and]
    · refine Json.Fields.setting_iff.mpr ⟨fun value hvalue => hwrong s value ⟨hs, hvalue⟩, ?_⟩
      rw [hset s, hs, Bool.true_and]

/-- What the options are, or what is wrong with them: of several faults, the one that is
reported. -/
inductive Verdict (config : Option Json) : Except Failure Options → Prop where
  | notAnObject (h : Json.fieldsOf? config = none) : Verdict config (.error .configNotAnObject)
  | removed {fields : Json.Fields} (h : Json.fieldsOf? config = some fields)
      (hremoved : fields.HasRemoved) : Verdict config (.error (.badOptions .removed))
  /-- The first of the switches that are wrong, by name. -/
  | wrong {fields : Json.Fields} {s : Switch} {value : Json}
      (h : Json.fieldsOf? config = some fields) (hremoved : ¬ fields.HasRemoved)
      (hwrong : r.Wrong fields s value)
      (hfirst : ∀ t other, r.Wrong fields t other → Json.precedes t.name s.name = false) :
      Verdict config (.error (.badOptions (.notABoolean value)))
  | settled {fields : Json.Fields} {o : Options} (h : Json.fieldsOf? config = some fields)
      (hremoved : ¬ fields.HasRemoved) (hright : ∀ s value, ¬ r.Wrong fields s value)
      (hset : ∀ s, o.isOn s = (r.limits.isOn s && fields.setting s)) : Verdict config (.ok o)

variable (config : Option Json)

/-- There is a verdict on every file of options. -/
theorem verdict_options_from : r.Verdict config (r.optionsFrom config) := by
  rw [options_from_fields]
  cases hfields : Json.fieldsOf? config with
  | none => exact .notAnObject hfields
  | some fields =>
    simp only
    cases hmerged : Options.ofFields (Json.Fields.insertAll fields r.overrides) with
    | ok o =>
      obtain ⟨hremoved, hright, hset⟩ := (r.merges_iff_setting fields).mp ((r.merges_iff fields).mp hmerged)
      exact .settled hfields hremoved hright hset
    | error fault =>
      rcases Options.of_fields_error hmerged with rfl | ⟨value, rfl⟩
      · exact .removed hfields ((r.has_removed_merged fields).mp (Options.of_fields_removed.mp hmerged))
      · obtain ⟨hremoved, hfirst⟩ := Options.of_fields_not_boolean.mp hmerged
        obtain ⟨s, hs, hearlier⟩ := Options.first_bad_iff.mp hfirst
        refine .wrong hfields ?_ ((r.wrong_merged fields).mp hs) fun t other ht => ?_
        · rwa [has_removed_merged] at hremoved
        · exact hearlier t other ((r.wrong_merged fields).mpr ht)

theorem options_from_verdict {config : Option Json} {v : Except Failure Options}
    (h : r.Verdict config v) : r.optionsFrom config = v := by
  rw [options_from_fields]
  cases h with
  | notAnObject h => rw [h]
  | removed h hremoved =>
    rw [h]
    simp only [Options.of_fields_removed.mpr ((r.has_removed_merged _).mpr hremoved)]
    rfl
  | @wrong fields s value h hremoved hwrong hfirst =>
    have hfault : Options.ofFields (Json.Fields.insertAll fields r.overrides) =
        .error (.notABoolean value) := by
      refine Options.of_fields_not_boolean.mpr ⟨by rwa [has_removed_merged], ?_⟩
      refine Options.first_bad_iff.mpr ⟨s, (r.wrong_merged fields).mpr hwrong, fun t other ht => ?_⟩
      exact hfirst t other ((r.wrong_merged fields).mp ht)
    rw [h]
    simp only [hfault]
    rfl
  | @settled fields o h hremoved hright hset =>
    have hmerges := (r.merges_iff_setting fields).mpr ⟨hremoved, hright, hset⟩
    rw [h]
    simp only [(r.merges_iff fields).mpr hmerges]
    rfl

theorem options_from_congr {fields other : Json.Fields}
    (hremoved : ∀ name ∈ Options.removedNames, fields.find? name = other.find? name)
    (hswitch : ∀ s : Switch, r.limits.isOn s = true → fields.find? s.name = other.find? s.name) :
    r.optionsFrom (some (.object fields)) = r.optionsFrom (some (.object other)) := by
  rw [options_from_fields, options_from_fields]
  simp only [Json.fieldsOf?]
  congr 1
  refine Options.of_fields_congr (fun name hname => ?_) fun s => ?_
  · rw [r.find_removed fields hname, r.find_removed other hname, hremoved name hname]
  · rw [find_switch, find_switch]
    split
    · rename_i hs
      exact hswitch s hs
    · rfl

/-- The options of a request are those of its file and its flags. They are given exactly if
the file holds an object, or nothing, without removed fields in which each switch that no
flag forces off is a boolean; otherwise the first of these faults is reported. Nothing else in
the file makes a difference. -/
theorem effective_options :
    (∀ files, r.options files = (r.loadConfig files).bind r.optionsFrom) ∧
    (∀ config, (∀ v, r.optionsFrom config = v ↔ r.Verdict config v) ∧
      ((∃ o, r.optionsFrom config = .ok o) ↔ ∃ fields, Json.fieldsOf? config = some fields ∧
        ¬ fields.HasRemoved ∧ ∀ s value, ¬ r.Wrong fields s value)) ∧
    ∀ fields other : Json.Fields,
      (∀ name ∈ Options.removedNames, fields.find? name = other.find? name) →
      (∀ s : Switch, r.limits.isOn s = true → fields.find? s.name = other.find? s.name) →
        r.optionsFrom (some (.object fields)) = r.optionsFrom (some (.object other)) := by
  have hverdict : ∀ config v, r.optionsFrom config = v ↔ r.Verdict config v := fun config v =>
    ⟨fun h => h ▸ r.verdict_options_from config, r.options_from_verdict⟩
  refine ⟨r.options_from_file, fun config => ⟨hverdict config, ?_⟩, fun _ _ => r.options_from_congr⟩
  constructor
  · rintro ⟨o, ho⟩
    cases (hverdict config _).mp ho with
    | settled h hremoved hright hset => exact ⟨_, h, hremoved, hright⟩
  · rintro ⟨fields, h, hremoved, hright⟩
    let o := Options.ofSwitches fun s => r.limits.isOn s && fields.setting s
    exact ⟨o, (hverdict config _).mpr (.settled h hremoved hright (Options.on_of_switches _))⟩

/-- A flag hides that its switch is set to a text, but not that another switch is null. -/
theorem effective_options_masked :
    optionsFrom ⟨none, none, none, ⟨true, false, true⟩⟩
        (some (.object [(Switch.clip.name, .string "no".toList), (Switch.pairs.name, .null)])) =
      optionsFrom ⟨none, none, none, ⟨true, false, true⟩⟩
        (some (.object [(Switch.pairs.name, .null), (['x'], .null)])) ∧
    optionsFrom ⟨none, none, none, ⟨true, false, true⟩⟩
        (some (.object [(Switch.pairs.name, .null), (['x'], .null)])) =
      .error (.badOptions (.notABoolean .null)) := by
  obtain ⟨-, hverdict, hcongr⟩ := effective_options ⟨none, none, none, ⟨true, false, true⟩⟩
  constructor
  · apply hcongr
    · intro name hname
      rcases List.mem_cons.mp hname with rfl | hname
      · rfl
      · obtain rfl := List.mem_singleton.mp hname
        rfl
    · intro s hs
      cases s with
      | clip => cases hs
      | overlay => rfl
      | pairs => rfl
  · refine ((hverdict _).1 _).mpr (.wrong (s := .pairs) rfl ?_ ⟨rfl, rfl, fun _ h => by cases h⟩ ?_)
    · rintro (h | h) <;> cases h
    · rintro t other ⟨-, hfound, -⟩
      cases t with
      | clip => cases hfound
      | overlay => cases hfound
      | pairs => rfl

end Request
end CssFallback
