import CssFallback.Proofs.Stylesheet.Bounds

/-!
# Pieces and insertions

What is written at a position may as well stand in the source, if everything behind it
is moved. A cursor that runs through the source, from one piece to the next, writes the
same text, as long as it stops between characters only.
-/

set_option autoImplicit false

namespace CssFallback

namespace Piece

theorem text_append (P Q : List Piece) (position : Nat) :
    textAt (P ++ Q) position = textAt P position ++ textAt Q position := by
  simp [textAt]

theorem text_none {P : List Piece} {position : Nat} (h : ∀ x ∈ P, x.position ≠ position) :
    textAt P position = [] := by
  simpa [textAt] using fun x hx hp => absurd hp (h x hx)

theorem text_run (position x : Nat) (run : Text) :
    textAt (ofRun position run) x = if position = x then run else [] := by
  by_cases hr : run = []
  · simp [ofRun, hr, textAt]
  · by_cases hx : position = x <;> simp [ofRun, hr, textAt, hx]

/-- Behind a position, all pieces stand `size` bytes further on. -/
def Shifts (P P' : List Piece) (position size : Nat) : Prop :=
  ∀ x, position < x → textAt P' (x + size) = textAt P x

theorem weave_shift {P P' : List Piece} {position size : Nat} (h : Shifts P P' position size) {q : Nat}
    (hq : position < q) (t : Text) : weave P' (q + size) t = weave P q t := by
  induction t generalizing q with
  | nil => exact h q hq
  | cons c t ih =>
    rw [weave, weave, h q hq, ← ih (Nat.lt_add_right _ hq), Nat.add_right_comm]

theorem weave_plain {P : List Piece} {position : Nat} {c : Char} {t : Text}
    (h : ∀ x, position < x → x < position + Text.byteSize (c :: t) → textAt P x = []) (rest : Text) :
    weave P position (c :: (t ++ rest)) = textAt P position ++ c :: (t ++
      weave P (position + Text.byteSize (c :: t)) rest) := by
  induction t generalizing position c with
  | nil => simp [weave, Text.byteSize]
  | cons d t ih =>
    have hc := c.utf8Size_pos
    have hsize : Text.byteSize (c :: d :: t) = c.utf8Size + Text.byteSize (d :: t) := rfl
    have hd := d.utf8Size_pos
    have hnext : textAt P (position + c.utf8Size) = [] := by
      apply h _ (by omega)
      rw [hsize]
      simp only [Text.byteSize]
      omega
    rw [weave, List.cons_append, ih, hnext, hsize, ← Nat.add_assoc]
    · rfl
    · intro x hx hx'
      exact h x (by omega) (by rw [hsize]; omega)

/-- What is written at a position can be inserted into the source there. -/
theorem weave_insert {P P' : List Piece} {front lead back : Text} {start : Nat} (position : Nat)
    (hp : start + front.byteSize = position) (hne : lead ≠ [])
    (hfront : ∀ x, x < position → textAt P' x = textAt P x)
    (hat : textAt P position = textAt P' position ++ lead)
    (hlead : ∀ x, position < x → x ≤ position + lead.byteSize → textAt P' x = [])
    (hback : Shifts P P' position lead.byteSize) :
    weave P' start (front ++ (lead ++ back)) = weave P start (front ++ back) := by
  induction front generalizing start with
  | nil =>
    obtain rfl : start = position := by simpa [Text.byteSize] using hp
    obtain ⟨c, t, rfl⟩ := List.exists_cons_of_ne_nil hne
    have hend : textAt P' (start + Text.byteSize (c :: t)) = [] := by
      have := c.utf8Size_pos
      exact hlead _ (by simp only [Text.byteSize]; omega) (Nat.le_refl _)
    simp only [List.nil_append, List.cons_append]
    rw [weave_plain fun x hx hx' => hlead x hx (Nat.le_of_lt hx')]
    cases back with
    | nil => simp [weave, hat, hend]
    | cons b back =>
      have hb := b.utf8Size_pos
      rw [weave, weave, hend, hat, Nat.add_right_comm,
        weave_shift hback (by omega)]
      simp
  | cons c front ih =>
    have hc := c.utf8Size_pos
    simp only [Text.byteSize] at hp
    rw [List.cons_append, List.cons_append, weave, weave, ih (by omega), hfront start (by omega)]

theorem weave_behind {P : List Piece} (Q : List Piece) {start : Nat} (h : ∀ x ∈ P, x.position < start)
    (t : Text) : weave (P ++ Q) start t = weave Q start t := by
  have hnone : textAt P start = [] := text_none fun x hx => Nat.ne_of_lt (h x hx)
  induction t generalizing start with
  | nil => rw [weave, weave, text_append, hnone, List.nil_append]
  | cons c t ih =>
    have hnext : ∀ x ∈ P, x.position < start + c.utf8Size := fun x hx => Nat.lt_add_right _ (h x hx)
    rw [weave, weave, text_append, hnone, List.nil_append,
      ih hnext (text_none fun x hx => Nat.ne_of_lt (hnext x hx))]

theorem weave_append {P Q : List Piece} {start : Nat} {s : Text} (t : Text)
    (hP : ∀ x ∈ P, x.position < start + s.byteSize) (hQ : ∀ x ∈ Q, start + s.byteSize ≤ x.position) :
    weave (P ++ Q) start (s ++ t) = weave P start s ++ weave Q (start + s.byteSize) t := by
  induction s generalizing start with
  | nil =>
    have hbefore : ∀ x ∈ P, x.position < start := hP
    have hnone : textAt P start = [] := text_none fun x hx => Nat.ne_of_lt (hbefore x hx)
    rw [List.nil_append, weave, hnone, weave_behind Q hbefore]
    rfl
  | cons c s ih =>
    have hc := c.utf8Size_pos
    simp only [Text.byteSize] at hP hQ ⊢
    have hnone : textAt Q start = [] := text_none fun x hx => by have := hQ x hx; omega
    rw [List.cons_append, weave, weave, text_append, hnone, List.append_nil,
      ih (fun x hx => by have := hP x hx; omega) (fun x hx => by have := hQ x hx; omega)]
    simp [Nat.add_assoc]

end Piece

/-! ## Writing with a cursor -/

namespace Piece

theorem weave_congr {P Q : List Piece} (h : ∀ x, textAt P x = textAt Q x) (position : Nat) (t : Text) :
    weave P position t = weave Q position t := by
  induction t generalizing position with
  | nil => exact h position
  | cons c t ih => rw [weave, weave, h, ih]

theorem weave_first (p : Piece) (P : List Piece) (t : Text) :
    weave (p :: P) p.position t = p.text ++ weave P p.position t := by
  have hfirst : textAt (p :: P) p.position = p.text ++ textAt P p.position := by simp [textAt]
  cases t with
  | nil => exact hfirst
  | cons c t =>
    have hbehind : weave ([p] ++ P) (p.position + c.utf8Size) t = weave P (p.position + c.utf8Size) t :=
      weave_behind P (by simp [c.utf8Size_pos]) t
    rw [List.singleton_append] at hbehind
    rw [weave, weave, hfirst, hbehind, List.append_assoc]

theorem order_trans (p q r : Piece) : decide (p.position ≤ q.position) = true →
    decide (q.position ≤ r.position) = true → decide (p.position ≤ r.position) = true := by
  simpa using Nat.le_trans

theorem order_total (p q : Piece) :
    (decide (p.position ≤ q.position) || decide (q.position ≤ p.position)) = true := by
  simpa using Nat.le_total _ _

theorem sorted_pairwise (P : List Piece) :
    (sorted P).Pairwise fun p q => p.position ≤ q.position :=
  (List.pairwise_mergeSort order_trans order_total P).imp of_decide_eq_true

/-- Sorting leaves the pieces for a position as they were. -/
theorem text_sorted (P : List Piece) (position : Nat) : textAt (sorted P) position = textAt P position := by
  let here : Piece → Bool := fun p => p.position == position
  have hequal : (P.filter here).Pairwise fun p q => decide (p.position ≤ q.position) = true := by
    refine List.pairwise_of_forall_mem_list fun p hp q hq => decide_eq_true ?_
    have hposition : ∀ x ∈ P.filter here, x.position = position := by simp [here]
    rw [hposition p hp, hposition q hq]
  have hkept : (P.filter here).Sublist (sorted P) :=
    List.sublist_mergeSort order_trans order_total hequal List.filter_sublist
  have hsame : (P.filter here).Sublist ((sorted P).filter here) := by
    have := hkept.filter here
    rwa [List.filter_filter, funext fun p => Bool.and_self (here p)] at this
  have hperm : (sorted P).Perm P := List.mergeSort_perm P _
  exact congrArg (List.flatMap text) (hsame.eq_of_length (hperm.filter here).length_eq.symm).symm

/-- Pieces in order at places where the source can be cut: the cursor never goes back, and
never stops inside a character. -/
theorem splice_weave {P : List Piece} {front back : Text}
    (hcut : ∀ p ∈ P, (front ++ back).Boundary p.position) (hfront : ∀ p ∈ P, front.byteSize ≤ p.position)
    (hsorted : P.Pairwise fun p q => p.position ≤ q.position) :
    splice? (front ++ back) front.byteSize P = some (weave P front.byteSize back) := by
  induction P generalizing front back with
  | nil => rw [splice?, Text.from_byte_size, weave_nil]
  | cons p P ih =>
    obtain ⟨hfirst, hrest⟩ := List.pairwise_cons.mp hsorted
    obtain ⟨mid, back, rfl, hp⟩ := (hcut p (by simp)).behind (hfront p (by simp))
    have hcursor : splice? (front ++ (mid ++ back)) p.position P =
        some (weave P p.position back) := by
      rw [← hp, ← List.append_assoc]
      refine ih (fun q hq => ?_) (fun q hq => hp ▸ hfirst q hq) hrest
      rw [List.append_assoc]
      exact hcut q (by simp [hq])
    have hkept : weave (p :: P) front.byteSize (mid ++ back) =
        mid ++ weave (p :: P) p.position back := by
      rw [Text.byte_size_append] at hp
      have := @weave_append [] (p :: P) front.byteSize mid back (by simp) (by simpa [hp] using hfirst)
      rwa [weave_nil, hp] at this
    rw [splice?, ← hp, Text.slice_byte_size, hp, hcursor, hkept, weave_first]
    simp

theorem splice_sorted {P : List Piece} {source : Text} (h : ∀ p ∈ P, source.Boundary p.position) :
    splice? source 0 (sorted P) = some (weave P 0 source) := by
  have hcut : ∀ p ∈ sorted P, source.Boundary p.position := fun p hp => h p (List.mem_mergeSort.mp hp)
  rw [← weave_congr (text_sorted P)]
  exact @splice_weave _ [] source hcut (fun _ _ => Nat.zero_le _) (sorted_pairwise P)

end Piece

/-! ## Moved pieces -/

namespace Insertion
variable (i : Insertion)

theorem place_injective {x y : Nat} (h : i.place x = i.place y) : x = y := by
  simp only [place] at h
  split at h <;> split at h <;> omega

theorem place_off {x y : Nat} (hx : i.position ≤ x) (hx' : x < i.position + i.size) : i.place y ≠ x := by
  simp only [place]
  split <;> omega

def piece (x : Piece) : Piece := ⟨i.place x.position, x.text⟩

theorem text_moved (P : List Piece) (x : Nat) :
    Piece.textAt (P.map i.piece) (i.place x) = Piece.textAt P x := by
  induction P with
  | nil => rfl
  | cons y P ih =>
    have hy : (i.place y.position = i.place x) = (y.position = x) :=
      propext ⟨i.place_injective, congrArg i.place⟩
    simp only [Piece.textAt] at ih ⊢
    by_cases hp : y.position = x <;> simp [piece, hy, hp, ih]

theorem text_moved_off (P : List Piece) {x : Nat} (hx : i.position ≤ x) (hx' : x < i.position + i.size) :
    Piece.textAt (P.map i.piece) x = [] := by
  apply Piece.text_none
  intro y hy
  obtain ⟨z, -, rfl⟩ := List.mem_map.mp hy
  exact i.place_off hx hx'

theorem weave_moved {P Q : List Piece} (run : Text) {lead front : Text} (back : Text) (hne : lead ≠ [])
    (hsize : i.size = lead.byteSize) (hfront : front.byteSize = i.position)
    (hP : ∀ x ∈ P, x.position ≠ i.position) (hQ : ∀ x ∈ Q, x.position ≠ i.position) :
    Piece.weave (P.map i.piece ++ Piece.ofRun i.position run ++ Q.map i.piece) 0
      (front ++ (lead ++ back)) =
    Piece.weave (P ++ Piece.ofRun i.position (run ++ lead) ++ Q) 0 (front ++ back) := by
  have hpos : 0 < lead.byteSize := Text.byte_size_pos hne
  have hbelow : ∀ x, x < i.position → ∀ R : List Piece,
      Piece.textAt (R.map i.piece) x = Piece.textAt R x := fun x hx R => by
    have := i.text_moved R x
    rwa [place, if_pos hx] at this
  have habove : ∀ x, i.position ≤ x → ∀ R : List Piece,
      Piece.textAt (R.map i.piece) (x + lead.byteSize) = Piece.textAt R x := fun x hx R => by
    have := i.text_moved R x
    rwa [place, if_neg (Nat.not_lt.mpr hx), hsize] at this
  have hoff : ∀ x, i.position ≤ x → x < i.position + lead.byteSize → ∀ R : List Piece,
      Piece.textAt (R.map i.piece) x = [] := fun x hx hx' R => i.text_moved_off R hx (by omega)
  refine Piece.weave_insert i.position (by omega) hne ?_ ?_ ?_ ?_
  · intro x hx
    simp only [Piece.text_append, Piece.text_run, hbelow x hx, if_neg (Nat.ne_of_gt hx)]
  · simp [Piece.text_append, Piece.text_run, hoff i.position (Nat.le_refl _) (by omega),
      Piece.text_none hP, Piece.text_none hQ]
  · intro x hx hx'
    have hrest : ∀ R : List Piece, (∀ y ∈ R, y.position ≠ i.position) →
        Piece.textAt (R.map i.piece) x = [] := by
      intro R hR
      by_cases hend : x < i.position + lead.byteSize
      · exact hoff x (Nat.le_of_lt hx) hend R
      · obtain rfl : x = i.position + lead.byteSize := by omega
        rw [habove _ (Nat.le_refl _), Piece.text_none hR]
    simp [Piece.text_append, Piece.text_run, hrest P hP, hrest Q hQ, Nat.ne_of_lt hx]
  · intro x hx
    simp [Piece.text_append, Piece.text_run, habove x (Nat.le_of_lt hx), Nat.ne_of_lt hx,
      Nat.ne_of_lt (Nat.lt_add_right lead.byteSize hx)]

end Insertion

/-! ## The pieces of a list -/

namespace Piece

def inFront : (run : Text) → Declarations → List Piece
  | _, [] => []
  | run, d :: rest =>
    match d.place with
    | none => inFront (run ++ d.leadText) rest
    | some position => ofRun position run ++ inFront [] rest

def left : (run : Text) → Declarations → Text
  | run, [] => run
  | run, d :: rest =>
    match d.place with
    | none => left (run ++ d.leadText) rest
    | some _ => left [] rest

theorem of_append (stop : Nat) (run : Text) (s t : Declarations) :
    ofDeclarations stop run (s ++ t) = inFront run s ++ ofDeclarations stop (left run s) t := by
  induction s generalizing run with
  | nil => rfl
  | cons d s ih =>
    cases hp : d.place <;> simp [ofDeclarations, inFront, left, hp, ih]

theorem of_declarations (stop : Nat) (run : Text) (list : Declarations) :
    ofDeclarations stop run list = inFront run list ++ ofRun stop (left run list) := by
  have := of_append stop run list []
  rwa [List.append_nil] at this

theorem of_placed {added : Declarations} (h : ∀ e ∈ added, e.place = none) {d : Declaration}
    {position : Nat} (hd : d.place = some position) (stop : Nat) (run : Text) (rest : Declarations) :
    ofDeclarations stop run (added ++ d :: rest) =
      ofRun position (run ++ added.flatMap Declaration.leadText) ++ ofDeclarations stop [] rest := by
  induction added generalizing run with
  | nil => simp [ofDeclarations, hd]
  | cons e added ih =>
    rw [List.cons_append, ofDeclarations, h e (by simp)]
    simp [ih fun x hx => h x (by simp [hx])]

theorem place_of_mem {run : Text} {list : Declarations} {x : Piece} (h : x ∈ inFront run list) :
    ∃ d ∈ list, d.place = some x.position := by
  induction list generalizing run with
  | nil => cases h
  | cons d list ih =>
    cases hp : d.place with
    | none =>
      rw [inFront, hp] at h
      obtain ⟨e, he, hx⟩ := ih h
      exact ⟨e, by simp [he], hx⟩
    | some position =>
      rw [inFront, hp] at h
      rcases List.mem_append.mp h with h | h
      · refine ⟨d, by simp, ?_⟩
        by_cases hr : run = []
        · simp [ofRun, hr] at h
        · simp only [ofRun, hr, if_false, List.mem_singleton] at h
          rw [hp, h]
      · obtain ⟨e, he, hx⟩ := ih h
        exact ⟨e, by simp [he], hx⟩

theorem in_front_of_placed {list : Declarations} (h : ∀ d ∈ list, d.place.isSome = true) :
    inFront [] list = [] := by
  induction list with
  | nil => rfl
  | cons d list ih =>
    obtain ⟨p, hp⟩ := Option.isSome_iff_exists.mp (h d (by simp))
    simp [inFront, hp, ofRun, ih fun e he => h e (by simp [he])]

theorem in_front_moved (i : Insertion) (run : Text) (list : Declarations) :
    inFront run (list.map i.moved) = (inFront run list).map i.piece ∧
      left run (list.map i.moved) = left run list := by
  induction list generalizing run with
  | nil => exact ⟨rfl, rfl⟩
  | cons d list ih =>
    have hlead : (i.moved d).leadText = d.leadText := rfl
    have hplace : (i.moved d).place = d.place.map i.place := rfl
    cases hp : d.place with
    | none => simp [inFront, left, hplace, hp, hlead, ih]
    | some position =>
      have hrun : ofRun (i.place position) run = (ofRun position run).map i.piece := by
        by_cases hr : run = [] <;> simp [ofRun, hr, Insertion.piece]
      simp [inFront, left, hplace, hp, ih, hrun]

end Piece
end CssFallback
