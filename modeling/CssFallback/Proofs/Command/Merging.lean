import CssFallback.Command.Run

/-!
# Options of a request

The options that a request is run with are those of its file of options, but for the
switches that a flag forces off. What the file says about such a switch does not matter,
even if it is no boolean.
-/

set_option autoImplicit false

namespace CssFallback

theorem ok_of_map_error {α β γ : Type} {f : α → β} {x : Except α γ} {value : γ} :
    x.mapError f = .ok value ↔ x = .ok value := by
  constructor
  · intro h
    cases x <;> cases h
    rfl
  · rintro rfl
    rfl

theorem error_of_map_error {α β γ : Type} {f : α → β} {x : Except α γ} {e : β}
    (h : x.mapError f = .error e) : ∃ e', f e' = e := by
  cases x with
  | error e' => exact ⟨e', Except.error.inj h⟩
  | ok a => cases h

theorem bind_ok_iff {α β ε : Type} {x : Except ε α} {f : α → Except ε β} {value : β} :
    x.bind f = .ok value ↔ ∃ a, x = .ok a ∧ f a = .ok value := by
  cases x <;> simp [Except.bind]

theorem bind_error_iff {α β ε : Type} {x : Except ε α} {f : α → Except ε β} {e : ε} :
    x.bind f = .error e ↔ x = .error e ∨ ∃ a, x = .ok a ∧ f a = .error e := by
  cases x <;> simp [Except.bind]

theorem map_ok_iff {α β ε : Type} {x : Except ε α} {f : α → β} {value : β} :
    x.map f = .ok value ↔ ∃ a, x = .ok a ∧ value = f a := by
  cases x <;> simp [Except.map, eq_comm]

theorem map_error_iff {α β ε : Type} {x : Except ε α} {f : α → β} {e : ε} :
    x.map f = .error e ↔ x = .error e := by
  cases x <;> simp [Except.map]

namespace Json.Fields

theorem find_absent {name : Text} {new : Fields} (h : ∀ field ∈ new, field.1 ≠ name)
    (fields : Fields) : find? name (insertAll fields new) = find? name fields := by
  induction new generalizing fields with
  | nil => rfl
  | cons field new ih =>
    have hfield : name ≠ field.1 := (h field (by simp)).symm
    have := ih (fun x hx => h x (by simp [hx])) (insert field.1 field.2 fields)
    rwa [find_insert_of_ne hfield] at this

/-- A field that is set, to the same value however often, has that value. -/
theorem find_set {name : Text} {value : Json} {new : Fields} (hname : ∃ field ∈ new, field.1 = name)
    (hvalue : ∀ field ∈ new, field.1 = name → field.2 = value) (fields : Fields) :
    find? name (insertAll fields new) = some value := by
  induction new generalizing fields with
  | nil => simp at hname
  | cons field new ih =>
    have hrest : ∀ x ∈ new, x.1 = name → x.2 = value := fun x hx => hvalue x (by simp [hx])
    by_cases hlater : ∃ x ∈ new, x.1 = name
    · exact ih hlater hrest (insert field.1 field.2 fields)
    · have hfield : field.1 = name := by
        obtain ⟨x, hx, hxname⟩ := hname
        rcases List.mem_cons.mp hx with rfl | hx
        · exact hxname
        · exact absurd ⟨x, hx, hxname⟩ hlater
      have habsent : ∀ x ∈ new, x.1 ≠ name := fun x hx hxname => hlater ⟨x, hx, hxname⟩
      have hlast := find_absent habsent (insert field.1 field.2 fields)
      rw [hfield, hvalue field (by simp) hfield, find_insert_self] at hlast
      rwa [insertAll, List.foldl_cons, hfield, hvalue field (by simp) hfield]

end Json.Fields

namespace Options

theorem on_of_switches (isOn : Switch → Bool) (s : Switch) : (ofSwitches isOn).isOn s = isOn s := by
  cases s <;> rfl

theorem eq_of_on {o o' : Options} (h : ∀ s, o.isOn s = o'.isOn s) : o = o' := by
  obtain ⟨overlay, clip, pairs⟩ := o
  obtain ⟨overlay', clip', pairs'⟩ := o'
  obtain rfl : overlay = overlay' := h .overlay
  obtain rfl : clip = clip' := h .clip
  obtain rfl : pairs = pairs' := h .pairs
  rfl

theorem first_bad_none {fields : Json.Fields} : firstBad? fields = none ↔
    ∀ s : Switch, ∃ value, (fields.find? s.name).getD (.bool true) = .bool value := by
  rw [firstBad?, List.findSome?_eq_none_iff]
  constructor
  · intro h s
    have := h s s.mem_all
    split at this
    · rename_i hs
      exact ⟨true, by rw [hs]; rfl⟩
    · rename_i value hs
      exact ⟨value, by rw [hs]; rfl⟩
    · cases this
  · intro h s _
    obtain ⟨value, hvalue⟩ := h s
    cases hs : fields.find? s.name with
    | none => rfl
    | some found =>
      obtain rfl : found = .bool value := by simpa [hs] using hvalue
      rfl

/-- Fields are options if no removed one is among them and every switch is a boolean, or
missing and on. -/
theorem of_fields_iff {fields : Json.Fields} {o : Options} : ofFields fields = .ok o ↔
    (∀ name ∈ removedNames, fields.find? name = none) ∧
      ∀ s : Switch, (fields.find? s.name).getD (.bool true) = .bool (o.isOn s) := by
  rw [ofFields]
  by_cases hremoved : removedNames.any fields.contains = true
  · obtain ⟨name, hname, hfound⟩ := List.any_eq_true.mp hremoved
    rw [if_pos hremoved]
    simp only [reduceCtorEq, false_iff]
    intro h
    simp [Json.Fields.contains, h.1 name hname] at hfound
  · have hnone : ∀ name ∈ removedNames, fields.find? name = none := by
      simpa [Json.Fields.contains] using hremoved
    rw [if_neg hremoved]
    cases hbad : firstBad? fields with
    | some value =>
      simp only [reduceCtorEq, false_iff]
      intro h
      have := first_bad_none.mpr fun s => ⟨_, h.2 s⟩
      rw [hbad] at this
      cases this
    | none =>
      simp only [Except.ok.injEq]
      generalize hmade : ofSwitches _ = made
      have hread : ∀ s : Switch, (fields.find? s.name).getD (.bool true) = .bool (made.isOn s) := by
        intro s
        obtain ⟨value, hvalue⟩ := first_bad_none.mp hbad s
        rw [← hmade, on_of_switches]
        cases hs : fields.find? s.name with
        | none => rfl
        | some found =>
          obtain rfl : found = .bool value := by simpa [hs] using hvalue
          rfl
      constructor
      · rintro rfl
        exact ⟨hnone, hread⟩
      · intro h
        exact eq_of_on fun s => Json.bool.inj ((hread s).symm.trans (h.2 s))

end Options

namespace Request

/-- The fields of the file of options that a request names. Without one, and with `null` in
it, there are none. -/
def FileHolds (r : Request) (files : Files) (fields : Json.Fields) : Prop :=
  match r.config with
  | none => fields = []
  | some path => ∃ bytes t, files.read path = .ok bytes ∧ Text.ofUtf8? bytes = some t ∧
      (Json.parse t = .ok .null ∧ fields = [] ∨ Json.parse t = .ok (.object fields))

/-- Options made of the fields of a file and of the flags. A switch is off if a flag forces
it off, and otherwise as the file sets it, or on. -/
structure Merges (r : Request) (fields : Json.Fields) (o : Options) : Prop where
  removed : ∀ name ∈ Options.removedNames, fields.find? name = none
  forced : ∀ s, r.limits.isOn s = false → o.isOn s = false
  given : ∀ s, r.limits.isOn s = true → (fields.find? s.name).getD (.bool true) = .bool (o.isOn s)

/-- The options are those that the request is to be run with. -/
def Configured (r : Request) (files : Files) (o : Options) : Prop :=
  ∃ fields, r.FileHolds files fields ∧ r.Merges fields o

section
variable (r : Request) (fields : Json.Fields)

theorem mem_overrides {field : Text × Json} : field ∈ r.overrides ↔
    ∃ s : Switch, r.limits.isOn s = false ∧ (s.name, .bool false) = field := by
  simp [overrides, Switch.mem_all]

theorem find_switch (s : Switch) : (Json.Fields.insertAll fields r.overrides).find? s.name =
    if r.limits.isOn s = true then fields.find? s.name else some (.bool false) := by
  split
  · rename_i hs
    refine Json.Fields.find_absent (fun field hfield hname => ?_) fields
    obtain ⟨s', hs', rfl⟩ := r.mem_overrides.mp hfield
    rw [Switch.name_injective hname, hs] at hs'
    cases hs'
  · rename_i hs
    refine Json.Fields.find_set ⟨(s.name, .bool false), ?_, rfl⟩ (fun field hfield _ => ?_) fields
    · exact r.mem_overrides.mpr ⟨s, by simpa using hs, rfl⟩
    · obtain ⟨s', -, rfl⟩ := r.mem_overrides.mp hfield
      rfl

theorem find_removed {name : Text} (h : name ∈ Options.removedNames) :
    (Json.Fields.insertAll fields r.overrides).find? name = fields.find? name := by
  have hnames : ∀ s : Switch, ∀ name ∈ Options.removedNames, s.name ≠ name := by
    intro s
    cases s <;> decide
  refine Json.Fields.find_absent (fun field hfield => ?_) fields
  obtain ⟨s, -, rfl⟩ := r.mem_overrides.mp hfield
  exact hnames s name h

theorem merges_iff {o : Options} :
    Options.ofFields (Json.Fields.insertAll fields r.overrides) = .ok o ↔ r.Merges fields o := by
  rw [Options.of_fields_iff]
  simp only [find_switch]
  constructor
  · rintro ⟨hremoved, hswitches⟩
    refine ⟨fun name hname => ?_, fun s hs => ?_, fun s hs => ?_⟩
    · rw [← r.find_removed fields hname]
      exact hremoved name hname
    · have := hswitches s
      rw [if_neg (by simp [hs])] at this
      exact (Json.bool.inj this).symm
    · have := hswitches s
      rwa [if_pos hs] at this
  · intro h
    refine ⟨fun name hname => (r.find_removed fields hname).trans (h.removed name hname), fun s => ?_⟩
    split
    · rename_i hs
      exact h.given s hs
    · rename_i hs
      rw [h.forced s (by simpa using hs)]
      rfl

end

/-! ## Reading the file of options -/

theorem decode_iff {content : Except Files.Fault ByteArray} {t : Text} :
    decode content = .ok t ↔ ∃ bytes, content = .ok bytes ∧ Text.ofUtf8? bytes = some t := by
  cases content with
  | error fault => simp [decode]
  | ok bytes => cases h : Text.ofUtf8? bytes <;> simp [decode, h]

theorem merged_iff {r : Request} {config : Option Json} {merged : Json.Fields} :
    r.merged? config = some merged ↔ ∃ fields, merged = Json.Fields.insertAll fields r.overrides ∧
      (config = none ∧ fields = [] ∨ config = some .null ∧ fields = [] ∨
        config = some (.object fields)) := by
  rw [merged?.eq_def]
  split <;> simp_all [eq_comm]

theorem load_config_iff {r : Request} {files : Files} {config : Option Json} :
    r.loadConfig files = .ok config ↔
      match r.config with
      | none => config = none
      | some path => ∃ bytes t value, files.read path = .ok bytes ∧ Text.ofUtf8? bytes = some t ∧
          Json.parse t = .ok value ∧ config = some value := by
  rw [load_config_eq]
  cases r.config with
  | none => simp [eq_comm]
  | some path =>
    simp only [bind_ok_iff, ok_of_map_error, decode_iff, map_ok_iff]
    constructor
    · rintro ⟨t, ⟨bytes, hread, ht⟩, value, hparse, rfl⟩
      exact ⟨bytes, t, value, hread, ht, hparse, rfl⟩
    · rintro ⟨bytes, t, value, hread, ht, hparse, rfl⟩
      exact ⟨t, ⟨bytes, hread, ht⟩, value, hparse, rfl⟩

theorem file_holds_iff {r : Request} {files : Files} {fields : Json.Fields} :
    r.FileHolds files fields ↔ ∃ config, r.loadConfig files = .ok config ∧
      (config = none ∧ fields = [] ∨ config = some .null ∧ fields = [] ∨
        config = some (.object fields)) := by
  simp only [load_config_iff, FileHolds]
  cases r.config with
  | none => simp
  | some path =>
    simp only
    constructor
    · rintro ⟨bytes, t, hread, ht, ⟨hparse, hfields⟩ | hparse⟩
      · exact ⟨_, ⟨bytes, t, _, hread, ht, hparse, rfl⟩, .inr (.inl ⟨rfl, hfields⟩)⟩
      · exact ⟨_, ⟨bytes, t, _, hread, ht, hparse, rfl⟩, .inr (.inr rfl)⟩
    · rintro ⟨_, ⟨bytes, t, value, hread, ht, hparse, rfl⟩, ⟨hnone, -⟩ | ⟨hnull, hfields⟩ | hobject⟩
      · cases hnone
      · exact ⟨bytes, t, hread, ht, .inl ⟨by rw [hparse, Option.some.inj hnull], hfields⟩⟩
      · exact ⟨bytes, t, hread, ht, .inr (by rw [hparse, Option.some.inj hobject])⟩

theorem options_iff {r : Request} {files : Files} {o : Options} :
    r.options files = .ok o ↔ r.Configured files o := by
  have hoptions : r.options files = .ok o ↔ ∃ config merged, r.loadConfig files = .ok config ∧
      r.merged? config = some merged ∧ Options.ofFields merged = .ok o := by
    rw [options_eq, bind_ok_iff]
    refine exists_congr fun config => ?_
    cases r.merged? config <;> simp [ok_of_map_error]
  rw [hoptions, Configured]
  constructor
  · rintro ⟨config, merged, hconfig, hmerged, ho⟩
    obtain ⟨fields, rfl, hfields⟩ := merged_iff.mp hmerged
    exact ⟨fields, file_holds_iff.mpr ⟨config, hconfig, hfields⟩, (r.merges_iff fields).mp ho⟩
  · rintro ⟨fields, hholds, hmerges⟩
    obtain ⟨config, hconfig, hfields⟩ := file_holds_iff.mp hholds
    exact ⟨config, _, hconfig, merged_iff.mpr ⟨fields, rfl, hfields⟩, (r.merges_iff fields).mpr hmerges⟩

end Request
end CssFallback
