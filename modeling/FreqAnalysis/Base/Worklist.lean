import Mathlib.Logic.Relation
import Mathlib.Data.Set.Basic

/-!
# Worklists

A search keeps the set of elements it has seen, starting from some seeds, and
expands them one after the other: it sees to it that every successor of an
expanded element has been seen. When everything seen is expanded, the search has
found exactly what can be reached from the seeds.
-/

namespace FreqAnalysis.Base

section Worklist

variable {α : Type} {next : α → α → Prop} {seeds seen expanded : Set α}

/-- What can be reached from the seeds. -/
def spread (next : α → α → Prop) (seeds : Set α) : Set α :=
  {y | ∃ x ∈ seeds, Relation.ReflTransGen next x y}

theorem seeds_subset_spread : seeds ⊆ spread next seeds :=
  fun x hx => ⟨x, hx, Relation.ReflTransGen.refl⟩

theorem spread_next {x y : α} (hx : x ∈ spread next seeds) (h : next x y) :
    y ∈ spread next seeds := by
  obtain ⟨z, hz, hpath⟩ := hx
  exact ⟨z, hz, hpath.tail h⟩

theorem spread_subset (hseeds : seeds ⊆ seen) (hclosed : ∀ x ∈ seen, ∀ y, next x y → y ∈ seen) :
    spread next seeds ⊆ seen := by
  rintro y ⟨x, hx, hpath⟩
  induction hpath with
  | refl => exact hseeds hx
  | tail _ hstep ih => exact hclosed _ ih _ hstep

theorem eq_spread (hseeds : seeds ⊆ seen) (hsound : seen ⊆ spread next seeds)
    (hclosed : ∀ x ∈ seen, ∀ y, next x y → y ∈ seen) : seen = spread next seeds :=
  Set.Subset.antisymm hsound (spread_subset hseeds hclosed)

/-- Along a list whose neighbours are related both ways, everything can be
reached from everywhere. -/
theorem reflTransGen_of_adjacent {l : List α} (hsymm : ∀ x y, next x y → next y x)
    (hadj : ∀ p ∈ l.zip l.tail, next p.1 p.2) {x y : α} (hx : x ∈ l) (hy : y ∈ l) :
    Relation.ReflTransGen next x y := by
  have hhead : ∀ (l : List α) (a : α), (∀ p ∈ (a :: l).zip l, next p.1 p.2) → ∀ z ∈ a :: l,
      Relation.ReflTransGen next a z := by
    intro l
    induction l with
    | nil =>
      intro a _ z hz
      rw [List.mem_singleton.mp hz]
    | cons b l ih =>
      intro a hadj z hz
      rw [List.zip_cons_cons] at hadj
      obtain ⟨hab, hrest⟩ := List.forall_mem_cons.mp hadj
      rcases List.mem_cons.mp hz with rfl | hz
      · exact Relation.ReflTransGen.refl
      · exact Relation.ReflTransGen.head hab (ih b hrest z hz)
  cases l with
  | nil => exact absurd hx List.not_mem_nil
  | cons a l =>
    have : Std.Symm next := ⟨hsymm⟩
    have hback := Relation.ReflTransGen.stdSymm.symm a x (hhead l a hadj x hx)
    exact hback.trans (hhead l a hadj y hy)

end Worklist
end FreqAnalysis.Base
