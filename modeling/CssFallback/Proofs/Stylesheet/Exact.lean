import CssFallback.Proofs.Stylesheet.Weave

/-!
# What is written

A sheet is written as its source, character by character, with runs of added
declarations in between. Each run is written once, as a whole, where the next declaration
of the source in its list stands, or else where its block ends. Runs for one position
keep the order of the rules and of their lists.
-/

set_option autoImplicit false

namespace CssFallback

/-- Added declarations that follow each other in their list, and where they are
written. -/
structure Run where
  position : Nat
  declarations : Declarations
  deriving DecidableEq

namespace Run

def text (r : Run) : Text := r.declarations.flatMap Declaration.leadText

def piece (r : Run) : Piece := ⟨r.position, r.text⟩

def ofAdded (position : Nat) (added : Declarations) : List Run :=
  if added = [] then [] else [⟨position, added⟩]

/-- The runs of a list in a block that ends at `stop`, where `added` stands in front. -/
def ofDeclarations (stop : Nat) : (added : Declarations) → Declarations → List Run
  | added, [] => ofAdded stop added
  | added, d :: rest =>
    match d.place with
    | none => ofDeclarations stop (added ++ [d]) rest
    | some position => ofAdded position added ++ ofDeclarations stop [] rest

def ofRule (r : Rule) : List Run := ofDeclarations r.stop [] r.declarations

theorem size (r : Run) :
    r.text.byteSize = (r.declarations.map fun d => d.leadText.byteSize).sum := by
  rw [text]
  induction r.declarations with
  | nil => rfl
  | cons d list ih => rw [List.flatMap_cons, Text.byte_size_append, ih, List.map_cons, List.sum_cons]

theorem declarations_of_added (position : Nat) (added : Declarations) :
    (ofAdded position added).flatMap declarations = added := by
  rw [ofAdded]
  split <;> simp_all

theorem declarations_of (stop : Nat) (added list : Declarations) :
    (ofDeclarations stop added list).flatMap declarations =
      added ++ list.filter fun d => d.place.isNone := by
  induction list generalizing added with
  | nil => simp [ofDeclarations, declarations_of_added]
  | cons d list ih =>
    cases hp : d.place <;>
      simp [ofDeclarations, hp, ih, declarations_of_added]

theorem position_of_added {position : Nat} {added : Declarations} {x : Run}
    (h : x ∈ ofAdded position added) : x.position = position := by
  rw [ofAdded] at h
  split at h <;> simp_all

theorem position_of_mem {stop : Nat} {added list : Declarations} {x : Run}
    (h : x ∈ ofDeclarations stop added list) :
    x.position = stop ∨ ∃ d ∈ list, d.place = some x.position := by
  induction list generalizing added with
  | nil => exact .inl (position_of_added h)
  | cons d list ih =>
    have hlater : ∀ {added}, x ∈ ofDeclarations stop added list →
        x.position = stop ∨ ∃ e ∈ d :: list, e.place = some x.position := by
      intro added hx
      exact (ih hx).imp_right fun ⟨e, he, hp⟩ => ⟨e, by simp [he], hp⟩
    cases hp : d.place with
    | none =>
      rw [ofDeclarations, hp] at h
      exact hlater h
    | some position =>
      rw [ofDeclarations, hp] at h
      rcases List.mem_append.mp h with hx | hx
      · exact .inr ⟨d, by simp, by rw [hp, position_of_added hx]⟩
      · exact hlater hx

theorem piece_of_added (position : Nat) (added : Declarations) :
    (ofAdded position added).map piece =
      Piece.ofRun position (added.flatMap Declaration.leadText) := by
  cases added with
  | nil => simp [ofAdded, Piece.ofRun]
  | cons d added => simp [ofAdded, Piece.ofRun, piece, text, Declaration.leadText]

/-- The runs are what the serializer splices in. -/
theorem pieces_of (stop : Nat) (added list : Declarations) :
    (ofDeclarations stop added list).map piece =
      Piece.ofDeclarations stop (added.flatMap Declaration.leadText) list := by
  induction list generalizing added with
  | nil => exact piece_of_added stop added
  | cons d list ih =>
    cases hp : d.place <;>
      simp [ofDeclarations, Piece.ofDeclarations, hp, ih, piece_of_added]

end Run

/-- A text that is a source from a byte position on, with runs written into it in order:
each one at its position. -/
inductive Spliced : Nat → Text → List Run → Text → Prop
  | nil (position : Nat) : Spliced position [] [] []
  | keep {position : Nat} {c : Char} {source text : Text} {runs : List Run}
      (h : Spliced (position + c.utf8Size) source runs text) :
      Spliced position (c :: source) runs (c :: text)
  | write {position : Nat} {run : Run} {source text : Text} {runs : List Run}
      (hp : run.position = position) (h : Spliced position source runs text) :
      Spliced position source (run :: runs) (run.text ++ text)

namespace Spliced
variable {position : Nat} {source text : Text} {runs : List Run}

theorem write_all {first : List Run} (hp : ∀ x ∈ first, x.position = position)
    (h : Spliced position source runs text) :
    Spliced position source (first ++ runs) (first.flatMap Run.text ++ text) := by
  induction first with
  | nil => exact h
  | cons x first ih =>
    rw [List.cons_append, List.flatMap_cons, List.append_assoc]
    exact .write (hp x (by simp)) (ih fun y hy => hp y (by simp [hy]))

theorem size (h : Spliced position source runs text) :
    text.byteSize = source.byteSize + (runs.map fun x => x.text.byteSize).sum := by
  induction h with
  | nil => rfl
  | keep _ ih =>
    simp only [Text.byteSize, ih]
    omega
  | write _ _ ih =>
    rw [Text.byte_size_append, ih, List.map_cons, List.sum_cons]
    omega

end Spliced

namespace Run

def inOrder (runs : List Run) : (position : Nat) → Text → List Run
  | position, [] => runs.filter fun x => x.position == position
  | position, c :: rest =>
    (runs.filter fun x => x.position == position) ++ inOrder runs (position + c.utf8Size) rest

theorem spliced_weave (runs : List Run) (position : Nat) (t : Text) :
    Spliced position t (inOrder runs position t) (Piece.weave (runs.map piece) position t) := by
  have hat : ∀ q, Piece.textAt (runs.map piece) q =
      (runs.filter fun x => x.position == q).flatMap text := by
    intro q
    simp [Piece.textAt, List.filter_map, List.flatMap_map, Function.comp_def, piece]
  have hpos : ∀ q, ∀ x ∈ runs.filter (fun x => x.position == q), x.position = q := by simp
  induction t generalizing position with
  | nil =>
    rw [Piece.weave, hat, inOrder]
    simpa using Spliced.write_all (hpos position) (.nil position)
  | cons c rest ih =>
    rw [Piece.weave, hat, inOrder]
    exact Spliced.write_all (hpos position) (.keep (ih _))

theorem mem_in_order {runs : List Run} {position : Nat} {t : Text} {x : Run}
    (h : x ∈ inOrder runs position t) : x ∈ runs ∧ position ≤ x.position := by
  induction t generalizing position with
  | nil =>
    simp only [inOrder, List.mem_filter, beq_iff_eq] at h
    exact ⟨h.1, Nat.le_of_eq h.2.symm⟩
  | cons c rest ih =>
    simp only [inOrder, List.mem_append, List.mem_filter, beq_iff_eq] at h
    rcases h with h | h
    · exact ⟨h.1, Nat.le_of_eq h.2.symm⟩
    · exact (ih h).imp_right fun hx => Nat.le_trans (Nat.le_add_right _ _) hx

/-- At a boundary of the text, all runs of that position are written, in their order. -/
theorem in_order_at (runs : List Run) (position : Nat) (front back : Text) :
    ((inOrder runs position (front ++ back)).filter fun x => x.position == position + front.byteSize) =
      runs.filter fun x => x.position == position + front.byteSize := by
  induction front generalizing position with
  | nil =>
    cases back with
    | nil => simp [inOrder, Text.byteSize]
    | cons c back =>
      have hlater : ((inOrder runs (position + c.utf8Size) back).filter
          fun x => x.position == position) = [] := by
        rw [List.filter_eq_nil_iff]
        intro x hx
        have := (mem_in_order hx).2
        have := c.utf8Size_pos
        simp only [beq_iff_eq]
        omega
      simp [inOrder, Text.byteSize, hlater]
  | cons c front ih =>
    have hc := c.utf8Size_pos
    have hnow : ((runs.filter fun x => x.position == position).filter
        fun x => x.position == position + Text.byteSize (c :: front)) = [] := by
      rw [List.filter_eq_nil_iff]
      intro x hx
      simp only [List.mem_filter, beq_iff_eq] at hx
      simp only [Text.byteSize, beq_iff_eq]
      omega
    rw [List.cons_append, inOrder, List.filter_append, hnow, List.nil_append]
    simp only [Text.byteSize, ← Nat.add_assoc]
    exact ih _

end Run

namespace Stylesheet

def runs (s : Stylesheet) : List Run := s.rules.flatMap Run.ofRule

def added (s : Stylesheet) : Declarations := (declarationsOf s.rules).filter fun d => d.place.isNone

theorem pieces_runs (s : Stylesheet) : s.rules.flatMap Piece.ofRule = s.runs.map Run.piece := by
  have hrule : ∀ r, (Run.ofRule r).map Run.piece = Piece.ofRule r := fun r =>
    Run.pieces_of r.stop [] r.declarations
  simp [runs, List.map_flatMap, hrule]

theorem declarations_runs (s : Stylesheet) : s.runs.flatMap Run.declarations = s.added := by
  have hrule : ∀ r, (Run.ofRule r).flatMap Run.declarations =
      r.declarations.filter fun d => d.place.isNone := fun r => Run.declarations_of r.stop [] _
  simp only [runs, added, declarationsOf, List.flatMap_assoc, hrule, List.filter_flatMap]

/-- The sheet is written exactly: the source is cut at boundaries only, and each run is
written once, at its position, in the order of the rules and of their lists, and nothing
else but the source. -/
structure WrittenExactly (s : Stylesheet) : Prop where
  written : s.write? = some s.render
  spliced : ∃ ordered : List Run, ordered.Perm s.runs ∧
    (∀ position, (ordered.filter fun x => x.position == position) =
      s.runs.filter fun x => x.position == position) ∧
    Spliced 0 s.source ordered s.render
  once : s.runs.flatMap Run.declarations = s.added
  size : s.render.byteSize =
    s.source.byteSize + (s.added.map fun d => d.leadText.byteSize).sum

theorem InBounds.run {s : Stylesheet} (h : s.InBounds) {x : Run} (hx : x ∈ s.runs) :
    s.source.Boundary x.position := by
  obtain ⟨r, hr, hx⟩ := List.mem_flatMap.mp hx
  rcases Run.position_of_mem hx with hp | ⟨d, hd, hp⟩
  · exact hp ▸ h.stops r hr
  · exact h.places r hr d hd _ hp

/-- Where the source can be cut at all positions, the cursor comes to its end. -/
theorem write_in_bounds {s : Stylesheet} (h : s.InBounds) : s.write? = some s.render := by
  refine Piece.splice_sorted fun p hp => ?_
  rw [pieces_runs] at hp
  obtain ⟨x, hx, rfl⟩ := List.mem_map.mp hp
  exact h.run hx

theorem size_runs (runs : List Run) : (runs.map fun x => x.text.byteSize).sum =
    ((runs.flatMap Run.declarations).map fun d => d.leadText.byteSize).sum := by
  induction runs with
  | nil => rfl
  | cons x runs ih => simp [x.size, ih]

theorem written_exactly {s : Stylesheet} (h : s.InBounds) : s.WrittenExactly := by
  let ordered := Run.inOrder s.runs 0 s.source
  have hspliced : Spliced 0 s.source ordered s.render := by
    rw [render, pieces_runs]
    exact Run.spliced_weave s.runs 0 s.source
  have hfilter : ∀ position, (ordered.filter fun x => x.position == position) =
      s.runs.filter fun x => x.position == position := by
    intro position
    by_cases hp : s.source.Boundary position
    · obtain ⟨front, back, hsource, rfl⟩ := hp
      have := Run.in_order_at s.runs 0 front back
      rwa [← hsource, Nat.zero_add] at this
    · -- no run has a position at which the source cannot be cut
      have hnone : ∀ runs : List Run, runs ⊆ s.runs →
          (runs.filter fun x => x.position == position) = [] := by
        intro runs hruns
        rw [List.filter_eq_nil_iff]
        intro x hx hxp
        exact hp (beq_iff_eq.mp hxp ▸ h.run (hruns hx))
      rw [hnone ordered fun x hx => (Run.mem_in_order hx).1, hnone s.runs fun x hx => hx]
  have hperm : ordered.Perm s.runs := by
    rw [List.perm_iff_count]
    intro x
    have := congrArg (List.count x) (hfilter x.position)
    rwa [List.count_filter (by simp), List.count_filter (by simp)] at this
  refine ⟨write_in_bounds h, ⟨ordered, hperm, hfilter, hspliced⟩, s.declarations_runs, ?_⟩
  rw [hspliced.size, (hperm.map _).sum_nat, size_runs, declarations_runs]

end Stylesheet
end CssFallback
