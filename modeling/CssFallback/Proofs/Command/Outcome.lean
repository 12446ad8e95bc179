import CssFallback.Proofs.Command.Merging

/-!
# What a run leaves

All steps of a run but the last one only look, and the last one changes one file, or
prints, or fails and changes nothing. So a run that fails leaves everything as it was. A
run that succeeds makes of its input and its options, as they were in front of it, the text
that the library makes of them, and puts it in one place. Options come first: without them
nothing else is looked at.
-/

set_option autoImplicit false

namespace CssFallback

theorem Text.of_utf8_encoded (t : Text) : ofUtf8? t.toUtf8 = some t := by
  have hstring : String.fromUTF8? (String.ofList t).toUTF8 = some (String.ofList t) :=
    dif_pos (String.ofList t).isValidUTF8
  rw [ofUtf8?, toUtf8, hstring, Option.map_some, String.toList_ofList]

/-! ## Files -/

namespace Files
variable {files : Files} {place p q : Place} {content : ByteArray} {t : Text} {target : Target}

@[simp]
theorem directory_put : (files.put place content).isDirectory p = files.isDirectory p := rfl

theorem find_put : (files.put place content).find? p =
    if p = place then some content else files.find? p := by
  rw [put, find?, find?]
  by_cases hp : p = place
  · simp [hp]
  · have hother : ∀ file : Place × ByteArray,
        (!decide (file.1 = place) && decide (file.1 = p)) = decide (file.1 = p) := by
      intro file
      by_cases hfile : file.1 = p
      · simp [hfile, hp]
      · simp [hfile]
    simp [hp, Ne.symm hp, List.find?_filter, hother]

theorem directory_iff : files.directory p = .ok q ↔ files.isDirectory p = true ∧ q = p := by
  rw [directory]
  split
  · simp [*, eq_comm]
  · split <;> simp [*]

theorem walk_put {names : List Text} (h : files.walk p names = .ok q) :
    (files.put place content).walk p names = .ok q := by
  have hdirectory : ∀ {p' q'}, files.directory p' = .ok q' →
      (files.put place content).directory p' = .ok q' := by
    intro p' q' hp
    rw [directory_iff] at hp ⊢
    exact hp
  induction names generalizing p with
  | nil => exact hdirectory h
  | cons name names ih =>
    rw [walk] at h ⊢
    cases hp : files.directory p with
    | error fault => simp [hp] at h
    | ok p' =>
      rw [hdirectory hp]
      rw [hp] at h
      exact ih h

theorem locate_put (h : files.locate t = .ok target) :
    (files.put place content).locate t = .ok target := by
  rw [locate] at h ⊢
  cases hlast : (Path.ofText t).names.getLast? with
  | none => simpa [hlast] using h
  | some last =>
    simp only [hlast] at h ⊢
    split at h
    · rename_i p hwalk
      rw [show (files.put place content).current = files.current from rfl, walk_put hwalk]
      exact h
    · cases h

/-- A path leads to a place for a file: in a directory, and none itself. -/
def Holds (files : Files) (t : Text) (place : Place) : Prop :=
  files.locate t = .ok ⟨place, false⟩ ∧ files.isDirectory place = false

theorem write_iff {files' : Files} : files.write t content = .ok files' ↔
    ∃ place, files.Holds t place ∧ files' = files.put place content := by
  rw [write]
  constructor
  · intro h
    split at h
    · cases h
    rename_i target hlocate
    obtain ⟨place, closed⟩ := target
    split at h
    · cases h
    rename_i hopen
    obtain ⟨rfl, hdirectory⟩ : closed = false ∧ files.isDirectory place = false := by
      simpa using hopen
    exact ⟨place, ⟨hlocate, hdirectory⟩, (Except.ok.inj h).symm⟩
  · rintro ⟨place, ⟨hlocate, hdirectory⟩, rfl⟩
    simp [hlocate, hdirectory]

theorem read_put (h : files.Holds t place) : (files.put place content).read t = .ok content := by
  obtain ⟨hlocate, hdirectory⟩ := h
  rw [read, locate_put hlocate]
  simp [hdirectory, find_put]

theorem read_put_other (h : files.locate t = .ok target) (hne : target.place ≠ place) :
    (files.put place content).read t = files.read t := by
  rw [read, locate_put h, read, h]
  simp [find_put, hne]

end Files

/-! ## Steps -/

def World.Same (w w' : World) : Prop := w'.stdout = w.stdout ∧ w'.files = w.files

theorem World.Same.trans {u v w : World} (h : u.Same v) (h' : v.Same w) : u.Same w :=
  ⟨h'.1.trans h.1, h'.2.trans h.2⟩

namespace Effect
variable {α β ε : Type} {x : Effect α} {f : α → Effect β}

theorem on_bind (x : Effect α) (f : α → Effect β) (w : World) : (x >>= f).on w =
    match x.on w with
    | (.ok a, v) => (f a).on v
    | (.error e, v) => (.error e, v) := by
  rw [Effect.on, ExceptT.run_bind, StateT.run_bind, Effect.on]
  rcases x.run.run w with ⟨_ | _, v⟩ <;> rfl

theorem on_attempt (failure : ε → Failure) (x : StateM World (Except ε α)) (w : World) :
    Effect.on (attempt failure x) w = ((x.run w).1.mapError failure, (x.run w).2) := rfl

theorem on_check (failure : ε → Failure) (x : Except ε α) (w : World) :
    Effect.on (check failure x) w = (x.mapError failure, w) := rfl

theorem on_write (failure : Files.Fault → Failure) (path : Text) (content : ByteArray) (w : World) :
    Effect.on (attempt failure (Host.writeFile path content)) w =
      match w.files.write path content with
      | .ok files => (.ok (), { w with files := files })
      | .error fault => (.error (failure fault), w) := by
  rw [on_attempt]
  simp only [Host.writeFile, StateT.run_bind, StateT.run_get, pure_bind]
  cases w.files.write path content <;> rfl

theorem bind_ok {w w' : World} {b : β} : (x >>= f).on w = (.ok b, w') ↔
    ∃ a v, x.on w = (.ok a, v) ∧ (f a).on v = (.ok b, w') := by
  rw [on_bind]
  rcases x.on w with ⟨_ | a, v⟩ <;> simp [and_assoc]

def Looks (x : Effect α) : Prop := ∀ w : World, w.Same (x.on w).2

/-- If the step fails, it leaves everything as it was. -/
def Atomic (x : Effect α) : Prop :=
  ∀ (w : World) (e : Failure), (x.on w).1 = .error e → w.Same (x.on w).2

/-- A failure leaves everything as it was as long as all steps but the last one only look. -/
theorem Atomic.bind (hx : Looks x) (hf : ∀ a, Atomic (f a)) : Atomic (x >>= f) := by
  intro w e h
  have hsame := hx w
  rw [on_bind] at h ⊢
  rcases hw : x.on w with ⟨e' | a, v⟩
  · rwa [hw] at hsame
  · rw [hw] at h hsame
    exact hsame.trans (hf a v e h)

theorem looks_check (failure : ε → Failure) (x : Except ε α) : Looks (check failure x) :=
  fun _ => ⟨rfl, rfl⟩

theorem atomic_print (t : Text) : Atomic (ExceptT.lift (Host.print t)) := fun _ _ h => by cases h

theorem atomic_write (failure : Files.Fault → Failure) (path : Text) (content : ByteArray) :
    Atomic (attempt failure (Host.writeFile path content)) := by
  intro w e h
  rw [on_write] at h ⊢
  split at h
  · cases h
  · exact ⟨rfl, rfl⟩

end Effect

/-! ## Requests -/

namespace Request
open Effect

def Supplied (r : Request) (stdin : ByteArray) (files : Files) (css : Text) : Prop :=
  match r.input with
  | none => Text.ofUtf8? stdin = some css
  | some path => ∃ bytes, files.read path = .ok bytes ∧ Text.ofUtf8? bytes = some css

def Writable (r : Request) (files : Files) : Prop :=
  ∀ path, r.output = some path → ∃ place, files.Holds path place

/-- A text is put where a request asks for it, and nowhere else: it is printed, or it is what
one file holds. -/
def Delivered (r : Request) (files : Files) (css stdout : Text) (left : Files) : Prop :=
  match r.output with
  | none => stdout = css ∧ left = files
  | some path => stdout = [] ∧ ∃ place, files.Holds path place ∧ left.read path = .ok css.toUtf8 ∧
      left.current = files.current ∧ (∀ p, left.isDirectory p = files.isDirectory p) ∧
      (∀ p, p ≠ place → left.find? p = files.find? p) ∧
      ∀ other target, files.locate other = .ok target → target.place ≠ place →
        left.read other = files.read other

variable {r : Request}

theorem Configured.unique {files : Files} {o o' : Options} (h : r.Configured files o)
    (h' : r.Configured files o') : o = o' :=
  Except.ok.inj ((options_iff.mpr h).symm.trans (options_iff.mpr h'))

theorem Supplied.unique {stdin : ByteArray} {files : Files} {css css' : Text}
    (h : r.Supplied stdin files css) (h' : r.Supplied stdin files css') : css = css' := by
  rw [Supplied.eq_def] at h h'
  split at h
  · rename_i hi
    simp only [hi] at h'
    exact Option.some.inj (h.symm.trans h')
  · rename_i path hi
    simp only [hi] at h'
    obtain ⟨bytes, hbytes, hcss⟩ := h
    obtain ⟨bytes', hbytes', hcss'⟩ := h'
    obtain rfl := Except.ok.inj (hbytes.symm.trans hbytes')
    exact Option.some.inj (hcss.symm.trans hcss')

theorem on_read_config (w : World) : Effect.on r.readConfig w = (r.loadConfig w.files, w) := by
  obtain ⟨input, output, config, limits⟩ := r
  rw [load_config_eq, readConfig.eq_def]
  cases config with
  | none => rfl
  | some path =>
    have hread : (decode <$> Reads.readFile path : StateM World (Except Files.Fault Text)).run w =
        (decode (w.files.read path), w) := rfl
    simp only [on_bind, on_attempt, hread]
    cases decode (w.files.read path) with
    | error fault => rfl
    | ok t =>
      have hok : (Except.mapError (Failure.configUnread path) (.ok t : Except Files.Fault Text)) = .ok t := rfl
      simp only [hok, Except.bind, on_check]
      cases Json.parse t <;> rfl

theorem on_read_options (w : World) : Effect.on r.readOptions w = (r.options w.files, w) := by
  rw [options_eq, readOptions, on_bind, on_read_config]
  cases r.loadConfig w.files with
  | error failure => rfl
  | ok config =>
    simp only [Except.bind]
    cases r.merged? config <;> rfl

theorem looks_read_options : Looks (r.readOptions : Effect Options) := fun w => by
  rw [on_read_options]
  exact ⟨rfl, rfl⟩

theorem looks_read_input : Looks (r.readInput : Effect Text) := by
  rw [readInput.eq_def]
  split <;> exact fun _ => ⟨rfl, rfl⟩

theorem atomic_write_output (css : Text) : Atomic (r.writeOutput css : Effect Unit) := by
  rw [writeOutput.eq_def]
  split
  · exact atomic_write _ _ _
  · exact atomic_print css

/-- A request that fails leaves everything as it was, since what it changes, it changes last. -/
theorem atomic_run : Atomic (r.run : Effect Unit) :=
  .bind looks_read_options fun _ => .bind looks_read_input fun _ => .bind (looks_check _ _) fun css =>
    atomic_write_output css

theorem supplied_iff {w : World} {css : Text} :
    (∃ v, Effect.on r.readInput w = (.ok css, v)) ↔ r.Supplied w.stdin w.files css := by
  rw [Supplied.eq_def, readInput.eq_def]
  cases r.input with
  | none =>
    have hstdin : (decode (.ok w.stdin)).mapError (Failure.inputUnread none) = .ok css ↔
        Text.ofUtf8? w.stdin = some css := by
      rw [ok_of_map_error, decode_iff]
      simp
    rw [← hstdin]
    exact ⟨fun ⟨_, h⟩ => (Prod.mk.inj h).1, fun h => ⟨_, Prod.ext h rfl⟩⟩
  | some path =>
    simp only
    rw [← decode_iff, ← ok_of_map_error (f := Failure.inputUnread path)]
    exact ⟨fun ⟨_, h⟩ => (Prod.mk.inj h).1, fun h => ⟨_, Prod.ext h rfl⟩⟩

theorem writable_iff {v : World} {css : Text} :
    (∃ v', Effect.on (r.writeOutput css) v = (.ok (), v')) ↔ r.Writable v.files := by
  rw [Writable, writeOutput.eq_def]
  cases r.output with
  | none => simpa using ⟨_, rfl⟩
  | some path =>
    simp only [on_write, Option.some.injEq, forall_eq']
    constructor
    · rintro ⟨v', h⟩
      split at h
      · rename_i files' hwrite
        obtain ⟨place, hplace, -⟩ := Files.write_iff.mp hwrite
        exact ⟨place, hplace⟩
      · cases h
    · rintro ⟨place, hplace⟩
      rw [Files.write_iff.mpr ⟨place, hplace, rfl⟩]
      exact ⟨_, rfl⟩

theorem delivered {v v' : World} {css : Text}
    (h : Effect.on (r.writeOutput css) v = (.ok (), v')) (hstdout : v.stdout = []) :
    r.Delivered v.files css v'.stdout v'.files := by
  rw [writeOutput.eq_def] at h
  rw [Delivered.eq_def]
  cases ho : r.output with
  | none =>
    simp only [ho] at h
    obtain rfl := (Prod.mk.inj h).2
    exact ⟨congrArg (· ++ css) hstdout, rfl⟩
  | some path =>
    simp only [ho, on_write] at h
    split at h
    · rename_i files' hwrite
      obtain ⟨place, hplace, rfl⟩ := Files.write_iff.mp hwrite
      obtain rfl := (Prod.mk.inj h).2
      refine ⟨hstdout, place, hplace, Files.read_put hplace, rfl, fun _ => rfl, fun p hp => ?_,
        fun _ _ => Files.read_put_other⟩
      rw [Files.find_put, if_neg hp]
    · cases h

theorem run_ok_iff {w w' : World} : Effect.on r.run w = (.ok (), w') ↔
    ∃ o css text v, r.Configured w.files o ∧ Effect.on r.readInput w = (.ok css, v) ∧
      addFallbacks o css = .ok text ∧ Effect.on (r.writeOutput text) v = (.ok (), w') := by
  simp only [run, bind_ok, on_read_options, on_check, Prod.mk.injEq, options_iff, ok_of_map_error]
  constructor
  · rintro ⟨o, u, ⟨ho, rfl⟩, css, v, hcss, text, v', ⟨htext, rfl⟩, hlast⟩
    exact ⟨o, css, text, _, ho, hcss, htext, hlast⟩
  · rintro ⟨o, css, text, v, ho, hcss, htext, hlast⟩
    exact ⟨o, w, ⟨ho, rfl⟩, css, v, hcss, text, v, ⟨htext, rfl⟩, hlast⟩

/-- Without options, what is wrong with them is all that matters. -/
theorem run_unconfigured {f : Failure} {w : World} (h : r.options w.files = .error f) :
    Effect.on r.run w = (.error f, w) := by
  rw [run, on_bind, on_read_options, h]

end Request

namespace Failure

def isOfOptions : Failure → Bool
  | .configUnread _ _ | .configNotJson _ _ | .configNotAnObject | .badOptions _ => true
  | _ => false

end Failure

theorem Request.failure_of_options {r : Request} {files : Files} {f : Failure}
    (h : r.options files = .error f) : f.isOfOptions = true := by
  rw [options_eq, bind_error_iff] at h
  rcases h with hload | ⟨config, -, h⟩
  · rw [load_config_eq] at hload
    split at hload
    · cases hload
    · rcases bind_error_iff.mp hload with h | ⟨t, -, h⟩
      · obtain ⟨fault, rfl⟩ := error_of_map_error h
        rfl
      · obtain ⟨fault, rfl⟩ := error_of_map_error (map_error_iff.mp h)
        rfl
  · split at h
    · cases h
      rfl
    · obtain ⟨fault, rfl⟩ := error_of_map_error h
      rfl

/-! ## Runs -/

namespace Command
open Effect
variable (arguments : List Text) (stdin : ByteArray) (files : Files)

theorem atomic_perform : Atomic (perform arguments : Effect Unit) := by
  refine .bind (looks_check _ _) fun command => ?_
  cases command with
  | help => exact atomic_print _
  | version => exact atomic_print _
  | run request => exact Request.atomic_run

theorem execute_failed (h : (execute arguments stdin files).code ≠ 0) :
    (execute arguments stdin files).stdout = [] ∧ (execute arguments stdin files).files = files := by
  have hatomic := atomic_perform arguments ⟨stdin, [], files⟩
  rw [execute] at h ⊢
  rcases hon : Effect.on (perform arguments) ⟨stdin, [], files⟩ with ⟨e | _, w⟩
  · rw [hon] at hatomic
    exact hatomic e rfl
  · simp [hon] at h

variable {arguments} {r : Request} (hr : ofArguments arguments = .ok (.run r))
include hr

theorem execute_run : execute arguments stdin files =
    match Effect.on r.run ⟨stdin, [], files⟩ with
    | (.ok (), w) => ⟨0, w.stdout, [], w.files⟩
    | (.error e, w) => ⟨1, w.stdout, e.report, w.files⟩ := by
  rw [execute, perform, on_bind, on_check, hr]
  rfl

theorem execute_code : (execute arguments stdin files).code = 0 ↔
    ∃ o css text, r.Configured files o ∧ r.Supplied stdin files css ∧
      addFallbacks o css = .ok text ∧ r.Writable files := by
  have hcode : (execute arguments stdin files).code = 0 ↔
      ∃ w, Effect.on r.run ⟨stdin, [], files⟩ = (.ok (), w) := by
    rw [execute_run stdin files hr]
    rcases Effect.on r.run ⟨stdin, [], files⟩ with ⟨e | _, w⟩ <;> simp
  have hfiles : ∀ {css v}, Effect.on r.readInput ⟨stdin, [], files⟩ = (.ok css, v) → v.files = files := by
    intro css v hcss
    have hsame := Request.looks_read_input (r := r) ⟨stdin, [], files⟩
    rw [hcss] at hsame
    exact hsame.2
  rw [hcode]
  constructor
  · rintro ⟨w, h⟩
    obtain ⟨o, css, text, v, ho, hcss, htext, hlast⟩ := Request.run_ok_iff.mp h
    refine ⟨o, css, text, ho, Request.supplied_iff.mp ⟨v, hcss⟩, htext, ?_⟩
    exact hfiles hcss ▸ Request.writable_iff.mp ⟨w, hlast⟩
  · rintro ⟨o, css, text, ho, hcss, htext, hwritable⟩
    obtain ⟨v, hv⟩ : ∃ v, Effect.on r.readInput ⟨stdin, [], files⟩ = (.ok css, v) :=
      Request.supplied_iff.mpr hcss
    obtain ⟨w, hw⟩ : ∃ w, Effect.on (r.writeOutput text) v = (.ok (), w) :=
      Request.writable_iff.mpr ((hfiles hv).symm ▸ hwritable)
    exact ⟨w, Request.run_ok_iff.mpr ⟨o, css, text, v, ho, hv, htext, hw⟩⟩

theorem execute_done (h : (execute arguments stdin files).code = 0) :
    ∃ o css text, r.Configured files o ∧ r.Supplied stdin files css ∧
      addFallbacks o css = .ok text ∧
      r.Delivered files text (execute arguments stdin files).stdout
        (execute arguments stdin files).files := by
  rw [execute_run stdin files hr] at h ⊢
  rcases hon : Effect.on r.run ⟨stdin, [], files⟩ with ⟨e | _, w⟩
  · simp [hon] at h
  · obtain ⟨o, css, text, v, ho, hcss, htext, hlast⟩ := Request.run_ok_iff.mp hon
    have hsame := Request.looks_read_input (r := r) ⟨stdin, [], files⟩
    rw [hcss] at hsame
    refine ⟨o, css, text, ho, Request.supplied_iff.mp ⟨v, hcss⟩, htext, ?_⟩
    have hdelivered := Request.delivered hlast hsame.1
    rwa [hsame.2] at hdelivered

end Command

/-- A run has all of its effect, in one place, or none, and it has its effect exactly if all
that it needs is there. What is wrong with the options is reported before anything that is
wrong with the stylesheet. -/
theorem Command.execute_atomic (arguments : List Text) (stdin : ByteArray) (files : Files) :
    ((execute arguments stdin files).code ≠ 0 →
      (execute arguments stdin files).stdout = [] ∧
        (execute arguments stdin files).files = files) ∧
    ∀ r, ofArguments arguments = .ok (.run r) →
      ((execute arguments stdin files).code = 0 ↔ ∃ o css text, r.Configured files o ∧
        r.Supplied stdin files css ∧ addFallbacks o css = .ok text ∧ r.Writable files) ∧
      ((execute arguments stdin files).code = 0 →
        ∃ o css text, r.Configured files o ∧ r.Supplied stdin files css ∧
          addFallbacks o css = .ok text ∧
          r.Delivered files text (execute arguments stdin files).stdout
            (execute arguments stdin files).files) ∧
      ((¬ ∃ o, r.Configured files o) → ∃ f : Failure, f.isOfOptions = true ∧
        r.options files = .error f ∧ execute arguments stdin files = ⟨1, [], f.report, files⟩) := by
  refine ⟨execute_failed arguments stdin files, fun r hr => ⟨execute_code stdin files hr,
    execute_done stdin files hr, fun hnone => ?_⟩⟩
  cases ho : r.options files with
  | ok o => exact absurd ⟨o, Request.options_iff.mp ho⟩ hnone
  | error f =>
    refine ⟨f, Request.failure_of_options ho, rfl, ?_⟩
    rw [execute_run stdin files hr, Request.run_unconfigured ho]

/-- A file that holds the stylesheet is written over, by another path, and so is one that
holds the options. Without a place for the result, or without options, nothing is changed. -/
theorem Command.execute_atomic_same_file :
    (∃ (r : Request) (files : Files), r = ⟨some ['x'], some "./x".toList, none, .all⟩ ∧
      files = .ofContents [(['x'], Text.toUtf8 "a\x7boverflow:clip\x7d".toList)] ∧
      r.Configured files .all ∧ r.Supplied .empty files "a\x7boverflow:clip\x7d".toList ∧
      (execute [['x'], "-o./x".toList] .empty files).code = 0 ∧
      r.Delivered files "a\x7boverflow:hidden;overflow:clip\x7d".toList
        (execute [['x'], "-o./x".toList] .empty files).stdout
        (execute [['x'], "-o./x".toList] .empty files).files) ∧
    (∃ (r : Request) (files : Files) (stdin : ByteArray), r = ⟨none, some ['x'], some ['x'], .all⟩ ∧
      files = .ofContents [(['x'], Text.toUtf8 "\x7b\"addOverlayFallback\":false\x7d".toList)] ∧
      stdin = Text.toUtf8 "a\x7boverflow:overlay\x7d".toList ∧
      r.Configured files ⟨false, true, true⟩ ∧ r.Supplied stdin files "a\x7boverflow:overlay\x7d".toList ∧
      (execute ["-cx".toList, "-ox".toList] stdin files).code = 0 ∧
      r.Delivered files "a\x7boverflow:overlay\x7d".toList
        (execute ["-cx".toList, "-ox".toList] stdin files).stdout
        (execute ["-cx".toList, "-ox".toList] stdin files).files) ∧
    ((execute ["-o.".toList] .empty (.ofContents [])).code ≠ 0 ∧
      (execute ["-o.".toList] .empty (.ofContents [])).stdout = []) ∧
    ∃ f : Failure, f.isOfOptions = true ∧
      execute [['x'], "-cx".toList] .empty (.ofContents [(['x'], Text.toUtf8 ['\x7d'])]) =
        ⟨1, [], f.report, .ofContents [(['x'], Text.toUtf8 ['\x7d'])]⟩ := by
  have hread : ∀ bytes, (Files.ofContents [(['x'], bytes)]).read ['x'] = .ok bytes := fun _ => rfl
  have hholds : ∀ bytes t, t = ['x'] ∨ t = "./x".toList →
      (Files.ofContents [(['x'], bytes)]).Holds t [['x']] := by
    rintro bytes t (rfl | rfl) <;> exact ⟨rfl, rfl⟩
  have hdone : ∀ {arguments stdin files o css text} {r : Request},
      ofArguments arguments = .ok (.run r) → r.Configured files o → r.Supplied stdin files css →
        addFallbacks o css = .ok text → r.Writable files →
          (execute arguments stdin files).code = 0 ∧
            r.Delivered files text (execute arguments stdin files).stdout
              (execute arguments stdin files).files := by
    intro arguments stdin files o css text r hr ho hcss htext hplace
    obtain ⟨hcode, hleft, -⟩ := (execute_atomic arguments stdin files).2 r hr
    have hzero := hcode.mpr ⟨o, css, text, ho, hcss, htext, hplace⟩
    obtain ⟨o', css', text', ho', hcss', htext', hdelivered⟩ := hleft hzero
    obtain rfl := ho.unique ho'
    obtain rfl := hcss.unique hcss'
    obtain rfl := Except.ok.inj (htext.symm.trans htext')
    exact ⟨hzero, hdelivered⟩
  refine ⟨⟨_, _, rfl, rfl, ?_⟩, ⟨_, _, _, rfl, rfl, rfl, ?_⟩, ?_, ?_⟩
  · have hconfigured : Request.Configured ⟨some ['x'], some "./x".toList, none, .all⟩
        (.ofContents [(['x'], Text.toUtf8 "a\x7boverflow:clip\x7d".toList)]) .all :=
      ⟨[], rfl, fun _ _ => rfl, fun s hs => by cases s <;> exact hs, fun s _ => by cases s <;> rfl⟩
    have hsupplied : Request.Supplied ⟨some ['x'], some "./x".toList, none, .all⟩ .empty
        (.ofContents [(['x'], Text.toUtf8 "a\x7boverflow:clip\x7d".toList)])
        "a\x7boverflow:clip\x7d".toList := ⟨_, hread _, Text.of_utf8_encoded _⟩
    refine ⟨hconfigured, hsupplied, hdone rfl hconfigured hsupplied rfl fun path hpath => ?_⟩
    exact ⟨_, hholds _ path (.inr (Option.some.inj hpath).symm)⟩
  · have hparse : Json.parse "\x7b\"addOverlayFallback\":false\x7d".toList =
        .ok (.object [("addOverlayFallback".toList, .bool false)]) := by
      simp [Json.parse, Json.readValue, Json.readFields, Json.readString, Json.skipSpace, Json.expect,
        Json.Fields.insertAll, Json.Fields.insert, Except.map, bind, Except.bind]
    have hconfigured : Request.Configured ⟨none, some ['x'], some ['x'], .all⟩
        (.ofContents [(['x'], Text.toUtf8 "\x7b\"addOverlayFallback\":false\x7d".toList)])
        ⟨false, true, true⟩ := by
      refine ⟨[(Switch.overlay.name, .bool false)], ?_, ?_, ?_, ?_⟩
      · exact ⟨_, _, hread _, Text.of_utf8_encoded _, .inr hparse⟩
      · intro name hname
        rcases List.mem_cons.mp hname with rfl | hname
        · rfl
        · obtain rfl := List.mem_singleton.mp hname
          rfl
      · intro s hs
        cases s <;> cases hs
      · intro s _
        cases s <;> rfl
    have hsupplied : Request.Supplied ⟨none, some ['x'], some ['x'], .all⟩
        (Text.toUtf8 "a\x7boverflow:overlay\x7d".toList)
        (.ofContents [(['x'], Text.toUtf8 "\x7b\"addOverlayFallback\":false\x7d".toList)])
        "a\x7boverflow:overlay\x7d".toList := Text.of_utf8_encoded _
    refine ⟨hconfigured, hsupplied, hdone rfl hconfigured hsupplied rfl fun path hpath => ?_⟩
    exact ⟨_, hholds _ path (.inl (Option.some.inj hpath).symm)⟩
  · obtain ⟨hfailed, hrun⟩ := execute_atomic ["-o.".toList] .empty (.ofContents [])
    have hnonzero : (execute ["-o.".toList] .empty (.ofContents [])).code ≠ 0 := by
      intro hzero
      obtain ⟨-, -, -, -, -, -, hplace⟩ := (hrun _ rfl).1.mp hzero
      obtain ⟨place, hlocate, -⟩ := hplace ['.'] rfl
      cases hlocate
    exact ⟨hnonzero, (hfailed hnonzero).1⟩
  · have hunconfigured : ¬ ∃ o, Request.Configured ⟨some ['x'], none, some ['x'], .all⟩
        (.ofContents [(['x'], Text.toUtf8 ['\x7d'])]) o := by
      rintro ⟨o, fields, ⟨bytes, t, hbytes, ht, hparse⟩, -⟩
      obtain rfl := Except.ok.inj ((hread _).symm.trans hbytes)
      obtain rfl := Option.some.inj ((Text.of_utf8_encoded _).symm.trans ht)
      rcases hparse with ⟨hparse, -⟩ | hparse <;> cases hparse
    obtain ⟨f, hf, -, hfailed⟩ := ((execute_atomic [['x'], "-cx".toList] .empty _).2 _ rfl).2.2 hunconfigured
    exact ⟨f, hf, hfailed⟩

end CssFallback
