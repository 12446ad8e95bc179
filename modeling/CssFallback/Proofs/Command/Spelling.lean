import CssFallback.Proofs.Command.Merging
import Mathlib.Data.List.Forall2
import Mathlib.Data.List.Nodup
import Mathlib.Data.List.TakeWhile

/-!
# Requests written as arguments

A request is written with a flag for each of its paths and for each switch that it forces
off, in any order and each in any spelling, and with `--` in front of the input. The
arguments are read back as the request, whatever its paths look like: the value of a flag
is never taken for a flag, and nothing behind `--` is.
-/

set_option autoImplicit false

namespace CssFallback

namespace Flag

theorem short_ne_hyphen {f : Flag} {c : Char} (h : f.short? = some c) : c ≠ '-' := by
  cases f <;> cases h <;> decide

theorem long_ne_nil (f : Flag) : f.long ≠ [] := by
  cases f with
  | off s => cases s <;> decide
  | _ => decide

theorem long_plain (f : Flag) : ∀ c ∈ f.long, (decide (c ≠ '=')) = true := by
  rw [← List.all_eq_true]
  cases f with
  | off s => cases s <;> rfl
  | _ => rfl

end Flag

namespace Arguments

/-- The arguments give one flag, and nothing else. -/
inductive Spells : List Text → Given → Prop
  | short {f : Flag} {c : Char} (hc : f.short? = some c) (hf : f.takesValue = false) :
      Spells [['-', c]] ⟨f, []⟩
  | long {f : Flag} (hf : f.takesValue = false) : Spells ['-' :: '-' :: f.long] ⟨f, []⟩
  /-- The value is the next argument. -/
  | shortApart {f : Flag} {c : Char} (hc : f.short? = some c) (hf : f.takesValue = true)
      (value : Text) : Spells [['-', c], value] ⟨f, value⟩
  | shortJoined {f : Flag} {c : Char} (hc : f.short? = some c) (hf : f.takesValue = true)
      {value : Text} (hv : value ≠ []) : Spells ['-' :: c :: value] ⟨f, value⟩
  | longApart {f : Flag} (hf : f.takesValue = true) (value : Text) :
      Spells ['-' :: '-' :: f.long, value] ⟨f, value⟩
  | longJoined {f : Flag} (hf : f.takesValue = true) (value : Text) :
      Spells ['-' :: '-' :: (f.long ++ '=' :: value)] ⟨f, value⟩

/-- Free arguments stand behind `--`, which may be left out if there are none. -/
inductive Closes : List Text → List Text → Prop
  | marked (free : List Text) : Closes (['-', '-'] :: free) free
  | bare : Closes [] []

/-- The arguments give flags, in any order and each in any spelling, and then free
arguments. -/
def Writes (arguments : List Text) (flags : List Given) (free : List Text) : Prop :=
  ∃ groups ordered closing, arguments = groups.flatten ++ closing ∧
    List.Forall₂ Spells groups ordered ∧ ordered.Perm flags ∧ Closes closing free

/-! ## One flag -/

section
variable {f : Flag} {c : Char}

theorem short_group (hc : f.short? = some c) (rest : Text) : shortGroup (c :: rest) =
    if f.takesValue then
      match rest with
      | [] => .ok ⟨[], some (f, [c])⟩
      | _ => .ok ⟨[⟨f, rest⟩], none⟩
    else (shortGroup rest).map fun g => ⟨⟨f, []⟩ :: g.complete, g.lacking⟩ := by
  rw [shortGroup, Flag.of_name_short hc]
  rfl

theorem group_short (hc : f.short? = some c) (rest : Text) :
    '-' :: c :: rest ≠ ['-', '-'] ∧ group? ('-' :: c :: rest) = some (shortGroup (c :: rest)) := by
  -- a hyphen would make it a long flag or `--`
  have hne := Flag.short_ne_hyphen hc
  constructor
  · simp [hne]
  · rw [group?.eq_def]
    split
    · rename_i heq
      simp_all
    · rename_i heq
      simp_all
    · simp_all

theorem group_long (f : Flag) (rest : Text) :
    '-' :: '-' :: (f.long ++ rest) ≠ ['-', '-'] ∧
      group? ('-' :: '-' :: (f.long ++ rest)) = some (longGroup (f.long ++ rest)) :=
  ⟨by simp [f.long_ne_nil], rfl⟩

theorem long_group (f : Flag) : longGroup f.long =
    .ok (if f.takesValue then ⟨[], some (f, f.long)⟩ else ⟨[⟨f, []⟩], none⟩) := by
  have hname : f.long.takeWhile (· ≠ '=') = f.long := List.takeWhile_eq_self_iff.mpr f.long_plain
  have hrest : f.long.dropWhile (· ≠ '=') = [] := List.dropWhile_eq_nil_iff.mpr f.long_plain
  rw [longGroup, hname, hrest, f.of_name_long]

theorem long_group_value (hf : f.takesValue = true) (value : Text) :
    longGroup (f.long ++ '=' :: value) = .ok ⟨[⟨f, value⟩], none⟩ := by
  have hname : (f.long ++ '=' :: value).takeWhile (· ≠ '=') = f.long := by
    rw [List.takeWhile_append_of_pos f.long_plain]
    simp
  have hrest : (f.long ++ '=' :: value).dropWhile (· ≠ '=') = '=' :: value := by
    rw [List.dropWhile_append_of_pos f.long_plain]
    simp
  simp only [longGroup, hname, hrest, f.of_name_long, if_pos hf]

end

theorem sort_complete {argument : Text} {g : Given}
    (h : argument ≠ ['-', '-'] ∧ group? argument = some (.ok ⟨[g], none⟩)) (rest : List Text) :
    sort (argument :: rest) = (sort rest).map (Sorted.addGiven [g]) := by
  rw [sort, if_neg h.1, h.2]

theorem sort_lacking {argument name : Text} {f : Flag}
    (h : argument ≠ ['-', '-'] ∧ group? argument = some (.ok ⟨[], some (f, name)⟩)) (value : Text)
    (rest : List Text) :
    sort (argument :: value :: rest) = (sort rest).map (Sorted.addGiven [⟨f, value⟩]) := by
  rw [sort, if_neg h.1, h.2]
  rfl

theorem sort_spells {group : List Text} {g : Given} (h : Spells group g) (rest : List Text) :
    sort (group ++ rest) = (sort rest).map (Sorted.addGiven [g]) := by
  cases h with
  | short hc hf =>
    obtain ⟨hne, hgroup⟩ := group_short hc []
    refine sort_complete ⟨hne, ?_⟩ rest
    rw [hgroup, short_group hc, if_neg (by simp [hf])]
    rfl
  | @long f hf =>
    obtain ⟨hne, hgroup⟩ := group_long f []
    rw [List.append_nil] at hne hgroup
    refine sort_complete ⟨hne, ?_⟩ rest
    rw [hgroup, long_group, if_neg (by simp [hf])]
  | shortApart hc hf value =>
    obtain ⟨hne, hgroup⟩ := group_short hc []
    exact sort_lacking ⟨hne, by rw [hgroup, short_group hc, if_pos hf]⟩ value rest
  | @shortJoined f c hc hf value hv =>
    obtain ⟨hne, hgroup⟩ := group_short hc value
    refine sort_complete ⟨hne, ?_⟩ rest
    rw [hgroup, short_group hc, if_pos hf]
    cases value with
    | nil => exact absurd rfl hv
    | cons d value => rfl
  | @longApart f hf value =>
    obtain ⟨hne, hgroup⟩ := group_long f []
    rw [List.append_nil] at hne hgroup
    exact sort_lacking ⟨hne, by rw [hgroup, long_group, if_pos hf]⟩ value rest
  | @longJoined f hf value =>
    obtain ⟨hne, hgroup⟩ := group_long f ('=' :: value)
    refine sort_complete ⟨hne, ?_⟩ rest
    rw [hgroup, long_group_value hf]

/-! ## All flags -/

theorem sort_groups {groups : List (List Text)} {gs : List Given}
    (h : List.Forall₂ Spells groups gs) (rest : List Text) :
    sort (groups.flatten ++ rest) = (sort rest).map (Sorted.addGiven gs) := by
  induction h with
  | nil => cases hs : sort rest <;> simp [hs, Except.map, Sorted.addGiven]
  | cons hg _ ih =>
    rw [List.flatten_cons, List.append_assoc, sort_spells hg, ih]
    cases sort rest <;> rfl

theorem sort_closes {closing free : List Text} (h : Closes closing free) :
    sort closing = .ok ⟨[], free⟩ := by
  cases h with
  | marked => rw [sort, if_pos rfl]
  | bare => rfl

theorem count_eq (s : Sorted) (f : Flag) : s.count f = (s.given.map Given.flag).count f := by
  rw [Sorted.count, List.count, List.countP_map]
  rfl

/-- Written arguments are read as the flags and the free arguments that they give. -/
theorem read_writes {arguments free : List Text} {flags : List Given}
    (h : Writes arguments flags free) (hd : (flags.map Given.flag).Nodup) :
    ∃ ordered, ordered.Perm flags ∧ read arguments = .ok ⟨ordered, free⟩ := by
  obtain ⟨groups, ordered, closing, rfl, hgroups, hperm, hcloses⟩ := h
  refine ⟨ordered, hperm, ?_⟩
  have hsort : sort (groups.flatten ++ closing) = .ok ⟨ordered, free⟩ := by
    rw [sort_groups hgroups, sort_closes hcloses]
    simp [Except.map, Sorted.addGiven]
  -- no flag is reported as given twice
  have hnone : (Flag.all.find? fun f => 1 < (⟨ordered, free⟩ : Sorted).count f) = none := by
    rw [List.find?_eq_none]
    intro f _
    have := List.nodup_iff_count_le_one.mp ((hperm.map Given.flag).nodup_iff.mpr hd) f
    rw [count_eq]
    simpa using this
  rw [read, hsort]
  simp only [hnone]

namespace Sorted
variable {s : Sorted} {f : Flag}

theorem has_iff {flags : List Given} (h : s.given.Perm flags) :
    s.has f = true ↔ f ∈ flags.map Given.flag := by
  rw [← (h.map Given.flag).mem_iff]
  simp [has]

theorem value_iff (hd : (s.given.map Given.flag).Nodup) {value : Text} :
    s.value? f = some value ↔ ⟨f, value⟩ ∈ s.given := by
  rw [value?, Option.map_eq_some_iff]
  constructor
  · rintro ⟨g, hg, rfl⟩
    obtain rfl : g.flag = f := by simpa using List.find?_some hg
    exact List.mem_of_find?_eq_some hg
  · intro hmem
    have hsome : (s.given.find? fun g => g.flag == f).isSome = true := by
      rw [List.find?_isSome]
      exact ⟨_, hmem, by simp⟩
    obtain ⟨g, hg⟩ := Option.isSome_iff_exists.mp hsome
    have hflag : g.flag = f := by simpa using List.find?_some hg
    have hsame := List.inj_on_of_nodup_map hd (List.mem_of_find?_eq_some hg) hmem hflag
    exact ⟨g, hg, by rw [hsame]⟩

end Sorted

def Given.longForm (g : Given) : List Text :=
  if g.flag.takesValue then ['-' :: '-' :: g.flag.long, g.value] else ['-' :: '-' :: g.flag.long]

/-- Flags can be written if those without a value are given none. -/
theorem exists_writes {flags : List Given}
    (h : ∀ g ∈ flags, g.flag.takesValue = false → g.value = []) (free : List Text) :
    ∃ arguments, Writes arguments flags free := by
  refine ⟨_, flags.map Given.longForm, flags, _, rfl, ?_, .refl _, .marked free⟩
  rw [List.forall₂_map_left_iff, List.forall₂_same]
  intro g hg
  rw [Given.longForm]
  split
  · rename_i hf
    exact .longApart hf g.value
  · rename_i hf
    have hf : g.flag.takesValue = false := by simpa using hf
    have hlong := Spells.long hf
    rwa [← h g hg hf] at hlong

end Arguments

/-! ## Requests -/

namespace Request
open Arguments

/-- The flags that ask for a request: one for each path but the input, and one for each
switch that is forced off. -/
def flags (r : Request) : List Given :=
  r.output.toList.map (⟨.output, ·⟩) ++ (r.config.toList.map (⟨.config, ·⟩) ++
    (Switch.all.filter fun s => !r.limits.isOn s).map fun s => ⟨.off s, []⟩)

variable (r : Request)

theorem mem_flags {g : Given} : g ∈ r.flags ↔ g.flag = .output ∧ r.output = some g.value ∨
    g.flag = .config ∧ r.config = some g.value ∨
      ∃ s, r.limits.isOn s = false ∧ g = ⟨.off s, []⟩ := by
  obtain ⟨flag, value⟩ := g
  simp only [flags, List.mem_append, List.mem_map, Option.mem_toList, List.mem_filter,
    Switch.mem_all, true_and, Given.mk.injEq, Bool.not_eq_true']
  grind

theorem flags_nodup : (r.flags.map Given.flag).Nodup := by
  have hall : ([Flag.output] ++ ([Flag.config] ++ Switch.all.map Flag.off)).Nodup := by decide
  refine hall.sublist ?_
  rw [flags, List.map_append, List.map_append, List.map_map, List.map_map, List.map_map]
  refine .append ?_ (.append ?_ (List.filter_sublist.map _))
  · cases r.output <;> simp
  · cases r.config <;> simp

theorem asks_nothing_else {f : Flag} (h : f ∈ r.flags.map Given.flag) : f ≠ .help ∧ f ≠ .version := by
  obtain ⟨g, hg, rfl⟩ := List.mem_map.mp h
  rcases (mem_flags r).mp hg with ⟨hf, -⟩ | ⟨hf, -⟩ | ⟨s, -, rfl⟩
  · simp [hf]
  · simp [hf]
  · simp

theorem exists_arguments (free : List Text) : ∃ arguments, Writes arguments r.flags free := by
  refine exists_writes (fun g hg hf => ?_) free
  rcases (mem_flags r).mp hg with ⟨hflag, -⟩ | ⟨hflag, -⟩ | ⟨s, -, rfl⟩
  · simp [hflag, Flag.takesValue] at hf
  · simp [hflag, Flag.takesValue] at hf
  · rfl

section
variable {r} {s : Sorted} (h : s.given.Perm r.flags)
include h

theorem value_given {f : Flag} {value : Text} : s.value? f = some value ↔ ⟨f, value⟩ ∈ r.flags := by
  have hd := (h.map Given.flag).nodup_iff.mpr r.flags_nodup
  rw [Sorted.value_iff hd, h.mem_iff]

theorem has_off (switch : Switch) : s.has (.off switch) = !r.limits.isOn switch := by
  rw [Bool.eq_iff_iff, Sorted.has_iff h, List.mem_map]
  constructor
  · rintro ⟨g, hg, hflag⟩
    rcases (mem_flags r).mp hg with ⟨hf, -⟩ | ⟨hf, -⟩ | ⟨t, ht, rfl⟩
    · rw [hf] at hflag
      cases hflag
    · rw [hf] at hflag
      cases hflag
    · obtain rfl := Flag.off.inj hflag
      simp [ht]
  · intro hoff
    exact ⟨⟨.off switch, []⟩, (mem_flags r).mpr (.inr (.inr ⟨switch, by simpa using hoff, rfl⟩)), rfl⟩

theorem of_sorted (hf : s.free = r.input.toList) (hi : r.input ≠ some ['-']) :
    Command.ofSorted s = .ok (.run r) := by
  have hhelp : s.has .help = false := by
    rw [Bool.eq_false_iff, ne_eq, Sorted.has_iff h]
    exact fun hm => (asks_nothing_else r hm).1 rfl
  have hversion : s.has .version = false := by
    rw [Bool.eq_false_iff, ne_eq, Sorted.has_iff h]
    exact fun hm => (asks_nothing_else r hm).2 rfl
  have houtput : s.value? .output = r.output := by
    ext value
    rw [value_given h, mem_flags]
    simp
  have hconfig : s.value? .config = r.config := by
    ext value
    rw [value_given h, mem_flags]
    simp
  have hlimits : Options.ofSwitches (fun switch => !s.has (.off switch)) = r.limits :=
    Options.eq_of_on fun switch => by rw [Options.on_of_switches, has_off h, Bool.not_not]
  obtain ⟨input, output, config, limits⟩ := r
  simp only at hf hi houtput hconfig hlimits
  rw [Command.ofSorted, hhelp, hversion, houtput, hconfig, hlimits, hf]
  cases input with
  | none => rfl
  | some input => simpa using hi

end

/-- Beside the flags of a request those for help and for the version may stand. -/
theorem nodup_asking (asking : List Given) (hd : (asking.map Given.flag).Nodup)
    (h : ∀ g ∈ asking, g.flag = .help ∨ g.flag = .version) :
    ((asking ++ r.flags).map Given.flag).Nodup := by
  rw [List.map_append, List.nodup_append]
  refine ⟨hd, r.flags_nodup, fun f hf f' hf' heq => ?_⟩
  obtain ⟨g, hg, rfl⟩ := List.mem_map.mp hf
  have hrest := asks_nothing_else r (heq ▸ hf')
  rcases h g hg with hflag | hflag
  · exact hrest.1 hflag
  · exact hrest.2 hflag

theorem help_asked {arguments inputs : List Text} {flags : List Given}
    (h : Writes arguments (⟨.help, []⟩ :: flags) inputs)
    (hd : ((⟨.help, []⟩ :: flags).map Given.flag).Nodup) :
    Command.ofArguments arguments = .ok .help := by
  obtain ⟨ordered, hperm, hread⟩ := read_writes h hd
  have hhelp : (⟨ordered, inputs⟩ : Sorted).has .help = true := (Sorted.has_iff hperm).mpr (by simp)
  rw [Command.ofArguments, hread]
  simp only [Command.ofSorted, hhelp, if_true]

theorem version_asked {arguments inputs : List Text} {flags : List Given}
    (h : Writes arguments (⟨.version, []⟩ :: flags) inputs)
    (hd : ((⟨.version, []⟩ :: flags).map Given.flag).Nodup) (hn : .help ∉ flags.map Given.flag) :
    Command.ofArguments arguments = .ok .version := by
  obtain ⟨ordered, hperm, hread⟩ := read_writes h hd
  have hversion : (⟨ordered, inputs⟩ : Sorted).has .version = true :=
    (Sorted.has_iff hperm).mpr (by simp)
  have hhelp : (⟨ordered, inputs⟩ : Sorted).has .help = false := by
    rw [Bool.eq_false_iff, ne_eq, Sorted.has_iff hperm]
    simpa using hn
  rw [Command.ofArguments, hread]
  simp only [Command.ofSorted, hhelp, hversion, if_true, Bool.false_eq_true, if_false]

/-- A request can be written as arguments, and however it is written, it is read back. A
flag that asks for help, or else one that asks for the version, comes before it, whatever
the free arguments are. -/
theorem written_read_back :
    (∃ arguments, Writes arguments r.flags r.input.toList) ∧
    (r.input ≠ some ['-'] → ∀ arguments, Writes arguments r.flags r.input.toList →
      Command.ofArguments arguments = .ok (.run r)) ∧
    (∀ arguments inputs, Writes arguments (⟨.help, []⟩ :: r.flags) inputs ∨
      Writes arguments (⟨.help, []⟩ :: ⟨.version, []⟩ :: r.flags) inputs →
        Command.ofArguments arguments = .ok .help) ∧
    ∀ arguments inputs, Writes arguments (⟨.version, []⟩ :: r.flags) inputs →
      Command.ofArguments arguments = .ok .version := by
  refine ⟨r.exists_arguments _, fun hi arguments h => ?_, ?_, fun arguments inputs h => ?_⟩
  · obtain ⟨ordered, hperm, hread⟩ := read_writes h r.flags_nodup
    rw [Command.ofArguments, hread]
    exact of_sorted (s := ⟨ordered, _⟩) hperm rfl hi
  · rintro arguments inputs (h | h)
    · exact help_asked h (r.nodup_asking [⟨.help, []⟩] (by simp) (by simp))
    · exact help_asked h (r.nodup_asking [⟨.help, []⟩, ⟨.version, []⟩] (by simp) (by simp))
  · exact version_asked h (r.nodup_asking [⟨.version, []⟩] (by simp) (by simp))
      fun hm => (asks_nothing_else r hm).1 rfl

/-- All paths look like flags, or are empty. -/
theorem written_read_back_hyphens :
    some "-V".toList ≠ some ['-'] ∧
    Command.ofArguments (["--config=", "-o", "--", "--no-clip-fallback", "--", "-V"].map
      String.toList) = .ok (.run ⟨some "-V".toList, some "--".toList, some [], ⟨true, false, true⟩⟩) ∧
    Command.ofArguments (["--no-clip-fallback", "-o--", "-h", "--version", "--config", "", "--", "-V",
      "x"].map String.toList) = .ok .help ∧
    Command.ofArguments (["-V", "--output=--", "-c", "", "--no-clip-fallback", "--", "-V"].map
      String.toList) = .ok .version := by
  obtain ⟨-, hrun, hhelp, hversion⟩ := written_read_back
    ⟨some "-V".toList, some "--".toList, some [], ⟨true, false, true⟩⟩
  have hoff : Spells ["--no-clip-fallback".toList] ⟨.off .clip, []⟩ :=
    .long (f := .off .clip) rfl
  refine ⟨by decide, hrun (by decide) _ ?_, hhelp _ ["-V".toList, "x".toList] (.inr ?_),
    hversion _ ["-V".toList] ?_⟩
  · have hgroups := List.Forall₂.cons (.longJoined (f := .config) rfl []) <|
      .cons (.shortApart (f := .output) rfl rfl "--".toList) <| .cons hoff .nil
    exact ⟨_, _, _, rfl, hgroups, by decide, .marked _⟩
  · have hgroups := List.Forall₂.cons hoff <|
      .cons (.shortJoined (f := .output) rfl rfl (by decide : "--".toList ≠ [])) <|
      .cons (.short (f := .help) rfl rfl) <| .cons (.long (f := .version) rfl) <|
      .cons (.longApart (f := .config) rfl []) .nil
    exact ⟨_, _, _, rfl, hgroups, by decide, .marked _⟩
  · have hgroups := List.Forall₂.cons (.short (f := .version) rfl rfl) <|
      .cons (.longJoined (f := .output) rfl "--".toList) <|
      .cons (.shortApart (f := .config) rfl rfl []) <| .cons hoff .nil
    exact ⟨_, _, _, rfl, hgroups, by decide, .marked _⟩

end Request
end CssFallback
