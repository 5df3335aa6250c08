import FreqAnalysis.Base.Lists
import Mathlib.Data.List.Basic
import Mathlib.Tactic.SplitIfs

/-!
# Cutting a list into segments

A loop collects elements in an open segment. Before it takes an element, a rule
looks at the open segment and at the element: the loop goes on with the segment,
or closes it, for a cause, and opens a new one with the element. The segment that
is open at the end is closed without a cause.
-/

namespace FreqAnalysis.Base.Cut

section Cutting

variable {α κ κ' : Type} (rule : List α → α → Option κ) (rule' : List α → α → Option κ')

/-- The segments with the causes that closed them; `cur` is open at the start. -/
def cuts : List α → List α → List (List α × Option κ)
  | cur, [] => [(cur, none)]
  | cur, a :: l =>
    match rule cur a with
    | some cause => (cur, some cause) :: cuts [a] l
    | none => cuts (cur ++ [a]) l

def segs (cur l : List α) : List (List α) := (cuts rule cur l).map Prod.fst

/-- The segment that is open after `l`. -/
def openSeg : List α → List α → List α
  | cur, [] => cur
  | cur, a :: l => if (rule cur a).isSome then openSeg [a] l else openSeg (cur ++ [a]) l

@[simp] theorem segs_nil (cur : List α) : segs rule cur [] = [cur] := rfl

@[simp] theorem openSeg_nil (cur : List α) : openSeg rule cur [] = cur := rfl

variable {rule rule'}

theorem cuts_cons_none {cur : List α} {a : α} (h : rule cur a = none) (l : List α) :
    cuts rule cur (a :: l) = cuts rule (cur ++ [a]) l := by
  simp only [cuts, h]

theorem cuts_cons_some {cur : List α} {a : α} {cause : κ} (h : rule cur a = some cause)
    (l : List α) : cuts rule cur (a :: l) = (cur, some cause) :: cuts rule [a] l := by
  simp only [cuts, h]

theorem segs_cons_none {cur : List α} {a : α} (h : rule cur a = none) (l : List α) :
    segs rule cur (a :: l) = segs rule (cur ++ [a]) l := by
  rw [segs, cuts_cons_none h, segs]

theorem segs_cons_some {cur : List α} {a : α} {cause : κ} (h : rule cur a = some cause)
    (l : List α) : segs rule cur (a :: l) = cur :: segs rule [a] l := by
  rw [segs, cuts_cons_some h, List.map_cons, segs]

theorem openSeg_cons_none {cur : List α} {a : α} (h : rule cur a = none) (l : List α) :
    openSeg rule cur (a :: l) = openSeg rule (cur ++ [a]) l := by
  simp [openSeg, h]

theorem openSeg_cons_some {cur : List α} {a : α} {cause : κ} (h : rule cur a = some cause)
    (l : List α) : openSeg rule cur (a :: l) = openSeg rule [a] l := by
  simp [openSeg, h]

theorem segs_flatten (cur l : List α) : (segs rule cur l).flatten = cur ++ l := by
  induction l generalizing cur with
  | nil => simp
  | cons a l ih =>
    cases h : rule cur a with
    | none => rw [segs_cons_none h, ih, List.append_assoc, List.singleton_append]
    | some cause => rw [segs_cons_some h, List.flatten_cons, ih, List.singleton_append]

variable (rule) in
/-- The open segment starts the first segment. -/
theorem segs_head (cur l : List α) : ∃ more rest, segs rule cur l = (cur ++ more) :: rest := by
  induction l generalizing cur with
  | nil => exact ⟨[], [], by simp⟩
  | cons a l ih =>
    cases h : rule cur a with
    | none =>
      obtain ⟨more, rest, heq⟩ := ih (cur ++ [a])
      exact ⟨a :: more, rest, by rw [segs_cons_none h, heq, List.append_assoc,
        List.singleton_append]⟩
    | some cause => exact ⟨[], segs rule [a] l, by rw [segs_cons_some h, List.append_nil]⟩

/-! ### Invariants of the open segment -/

section Invariant

variable {P : List α → Prop} {Q : α → Prop} (hnew : ∀ a, Q a → P [a])
  (hgrow : ∀ cur a, Q a → P cur → rule cur a = none → P (cur ++ [a]))

include hnew hgrow

theorem openSeg_invariant {cur l : List α} (hcur : P cur) (hl : ∀ a ∈ l, Q a) :
    P (openSeg rule cur l) := by
  induction l generalizing cur with
  | nil => exact hcur
  | cons a l ih =>
    have ha : Q a := hl a (List.mem_cons_self ..)
    have hl' : ∀ b ∈ l, Q b := fun b hb => hl b (List.mem_cons_of_mem _ hb)
    cases h : rule cur a with
    | none =>
      rw [openSeg_cons_none h]
      exact ih (hgrow cur a ha hcur h) hl'
    | some cause =>
      rw [openSeg_cons_some h]
      exact ih (hnew a ha) hl'

theorem segs_invariant {cur l : List α} (hcur : P cur) (hl : ∀ a ∈ l, Q a) :
    ∀ s ∈ segs rule cur l, P s := by
  induction l generalizing cur with
  | nil =>
    intro s hs
    rw [List.mem_singleton.mp hs]
    exact hcur
  | cons a l ih =>
    have ha : Q a := hl a (List.mem_cons_self ..)
    have hl' : ∀ b ∈ l, Q b := fun b hb => hl b (List.mem_cons_of_mem _ hb)
    cases h : rule cur a with
    | none =>
      rw [segs_cons_none h]
      exact ih (hgrow cur a ha hcur h) hl'
    | some cause =>
      rw [segs_cons_some h]
      intro s hs
      rcases List.mem_cons.mp hs with rfl | hs
      · exact hcur
      · exact ih (hnew a ha) hl' s hs

end Invariant

/-! ### Two rules -/

/-- Two rules give the same segments exactly when they decide alike at every
element, with the segment that the second rule has open there. -/
theorem segs_eq_iff (cur l : List α) :
    segs rule cur l = segs rule' cur l ↔
      ∀ pre a post, l = pre ++ a :: post →
        (rule (openSeg rule' cur pre) a).isSome = (rule' (openSeg rule' cur pre) a).isSome := by
  induction l generalizing cur with
  | nil => simp
  | cons a l ih =>
    rw [forall_split_cons, openSeg_nil]
    cases h : rule cur a with
    | none =>
      cases h' : rule' cur a with
      | none =>
        rw [segs_cons_none h, segs_cons_none h', ih]
        simp only [openSeg_cons_none h', Option.isSome_none, true_and]
      | some cause' =>
        -- one loop closes `cur`, the other has a longer first segment
        obtain ⟨more, rest, heq⟩ := segs_head rule (cur ++ [a]) l
        rw [segs_cons_none h, segs_cons_some h', heq]
        simp
    | some cause =>
      cases h' : rule' cur a with
      | none =>
        obtain ⟨more, rest, heq⟩ := segs_head rule' (cur ++ [a]) l
        rw [segs_cons_some h, segs_cons_none h', heq]
        simp
      | some cause' =>
        rw [segs_cons_some h, segs_cons_some h', List.cons.injEq, ih]
        simp only [openSeg_cons_some h', Option.isSome_some, true_and]

end Cutting

end FreqAnalysis.Base.Cut
