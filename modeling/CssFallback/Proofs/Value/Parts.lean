import CssFallback.Value

/-!
# What a part is made of

The tokens of a value are divided into runs, and each run is a part. A run ends at the first
place at which no bracket is open, so that a closer that closes nothing is a run of its own.
Only the last run may end with a bracket open, where the value ends.
-/

set_option autoImplicit false

namespace CssFallback

namespace ValuePart

/-- Consecutive tokens, the first of which tells what they are. -/
structure Run where
  first : Token
  more : List Token

namespace Run

def tokens (r : Run) : List Token := r.first :: r.more

def part (r : Run) : ValuePart := ⟨.ofToken r.first.kind, Token.textOf r.tokens⟩

def nesting (r : Run) : Nesting := Nesting.after [] r.tokens

/-- A bracket is open at every place within. -/
def Whole (r : Run) : Prop :=
  ∀ front back, r.tokens = front ++ back → front ≠ [] → back ≠ [] → Nesting.after [] front ≠ []

def push (r : Run) (t : Token) : Run := ⟨r.first, r.more ++ [t]⟩

def unclosed (r : Run) : Unclosed := ⟨.ofToken r.first.kind, Token.textOf r.tokens, r.nesting⟩

end Run

/-- Tokens are divided into runs, all but the last of which are closed. -/
structure Divides (rs : List Run) (ts : List Token) : Prop where
  all : rs.flatMap Run.tokens = ts
  whole : ∀ r ∈ rs, r.Whole
  closed : ∀ r ∈ rs.dropLast, r.nesting = []

namespace Run
variable (r : Run) (t : Token)

theorem tokens_push : (r.push t).tokens = r.tokens ++ [t] := rfl

theorem nesting_push : (r.push t).nesting = r.nesting.step t := by
  rw [nesting, tokens_push, Nesting.after_append]
  rfl

theorem text_push : Token.textOf (r.push t).tokens = Token.textOf r.tokens ++ t.text := by
  rw [tokens_push, Token.text_of_append]
  simp [Token.textOf]

theorem whole_single : (Run.mk t []).Whole := by
  intro front back h hf hb
  cases front with
  | nil => exact absurd rfl hf
  | cons a front =>
    have hrest : [] = front ++ back := (List.cons.inj h).2
    exact absurd (List.append_eq_nil_iff.mp hrest.symm).2 hb

variable {r t}

theorem Whole.push (h : r.Whole) (hopen : r.nesting ≠ []) : (r.push t).Whole := by
  intro front back hsplit hf hb
  obtain ⟨back, u, rfl⟩ : ∃ back' u, back = back' ++ [u] :=
    ⟨back.dropLast, back.getLast hb, (List.dropLast_concat_getLast hb).symm⟩
  rw [tokens_push, ← List.append_assoc] at hsplit
  obtain ⟨htokens, -⟩ := List.append_inj' hsplit rfl
  cases back with
  | nil =>
    rw [List.append_nil] at htokens
    rwa [← htokens]
  | cons b back => exact h front _ htokens hf (by simp)

end Run

namespace Divides
variable {rs : List Run} {ts : List Token} {r : Run}

theorem nil : Divides [] [] := ⟨rfl, by simp, by simp⟩

theorem single (h : r.Whole) : Divides [r] r.tokens := by
  refine ⟨by simp, by simpa using h, by simp⟩

theorem cons (h : r.Whole) (hr : r.nesting = []) (hd : Divides rs ts) :
    Divides (r :: rs) (r.tokens ++ ts) := by
  refine ⟨?_, ?_, ?_⟩
  · rw [List.flatMap_cons, hd.all]
  · intro x hx
    rcases List.mem_cons.mp hx with rfl | hx
    · exact h
    · exact hd.whole x hx
  · intro x hx
    cases rs with
    | nil => simp at hx
    | cons r' rs =>
      rw [List.dropLast_cons_of_ne_nil (by simp)] at hx
      rcases List.mem_cons.mp hx with rfl | hx
      · exact hr
      · exact hd.closed x hx

end Divides

theorem nesting_single {t : Token} (h : t.opens? = none) : (Run.mk t []).nesting = [] := by
  show Nesting.step [] t = []
  rw [Nesting.step, h]
  cases t.closes? <;> rfl

theorem unclosed_single {t : Token} {b : Bracket} (h : t.opens? = some b) :
    (Run.mk t []).unclosed = ⟨.ofToken t.kind, t.text, [b]⟩ := by
  have hnesting : (Run.mk t []).nesting = [b] := by
    show Nesting.step [] t = [b]
    rw [Nesting.step, h]
  rw [Run.unclosed, hnesting]
  simp [Run.tokens, Token.textOf]

theorem group_run (r : Run) (t : Token) (rest : List Token) :
    group (some r.unclosed) (t :: rest) =
      if (r.push t).nesting = [] then (r.push t).part :: group none rest
      else group (some (r.push t).unclosed) rest := by
  rw [group, Run.nesting_push]
  simp only [Run.unclosed, Run.part, Run.text_push, Run.nesting_push]
  cases h : r.nesting.step t with
  | nil => rfl
  | cons b outer => rfl

/-- Tokens are grouped along a division, and so are those behind a run that is open. -/
theorem group_divides (ts : List Token) :
    (∃ rs, Divides rs ts ∧ group none ts = rs.map Run.part) ∧
      ∀ r : Run, r.Whole → r.nesting ≠ [] →
        ∃ rs, Divides rs (r.tokens ++ ts) ∧ group (some r.unclosed) ts = rs.map Run.part := by
  induction ts with
  | nil =>
    refine ⟨⟨[], .nil, rfl⟩, fun r hr _ => ⟨[r], ?_, rfl⟩⟩
    rw [List.append_nil]
    exact .single hr
  | cons t rest ih =>
    obtain ⟨⟨rs, hrs, hgroup⟩, hopen⟩ := ih
    refine ⟨?_, fun r hr hnesting => ?_⟩
    · cases ht : t.opens? with
      | none =>
        refine ⟨⟨t, []⟩ :: rs, .cons (Run.whole_single t) (nesting_single ht) hrs, ?_⟩
        rw [group, ht, List.map_cons, ← hgroup]
        simp [Run.part, Run.tokens, Token.textOf]
      | some b =>
        have hsingle := unclosed_single ht
        have hnesting : (Run.mk t []).nesting = [b] := congrArg Unclosed.nesting hsingle
        rw [group, ht]
        simp only
        rw [← hsingle]
        exact hopen ⟨t, []⟩ (Run.whole_single t) (by simp [hnesting])
    · have hpushed := hr.push (t := t) hnesting
      have htokens : r.tokens ++ t :: rest = (r.push t).tokens ++ rest := by
        rw [Run.tokens_push, List.append_assoc, List.singleton_append]
      rw [group_run, htokens]
      split
      · rename_i hclosed
        exact ⟨r.push t :: rs, .cons hpushed hclosed hrs, by rw [hgroup, List.map_cons]⟩
      · rename_i hstill
        exact hopen (r.push t) hpushed hstill

end ValuePart

open ValuePart in
/-- Nothing of a value is lost and no part is empty, whatever the value: its parts are the
runs of its tokens that no bracket is open between. -/
theorem value_parts_lossless (value : Text) :
    textOf (valueParts value) = value ∧ [] ∉ (valueParts value).map ValuePart.text ∧
      ∃ rs, Divides rs (lex value) ∧ valueParts value = rs.map Run.part := by
  obtain ⟨rs, hrs, hparts⟩ := (group_divides (lex value)).1
  refine ⟨text_of_value_parts value, ?_, rs, hrs, hparts⟩
  intro hempty
  obtain ⟨p, hp, htext⟩ := List.mem_map.mp hempty
  rw [valueParts, hparts] at hp
  obtain ⟨r, hr, rfl⟩ := List.mem_map.mp hp
  have hfirst : r.first ∈ lex value := by
    rw [← hrs.all]
    exact List.mem_flatMap.mpr ⟨r, hr, by simp [Run.tokens]⟩
  have hnil : r.first.text = [] := (List.append_eq_nil_iff.mp htext).1
  exact text_ne_nil_of_mem_lex value r.first hfirst hnil

example : valueParts ")f(] ".toList = [⟨.other, [')']⟩, ⟨.function, "f(] ".toList⟩] := by decide

end CssFallback
