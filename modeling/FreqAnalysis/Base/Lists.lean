import Mathlib.Algebra.GroupWithZero.Nat
import Mathlib.Data.List.Forall2
import Mathlib.Data.List.Nodup

/-!
# Facts about lists

Statements over all ways to split a list at an element, permutations block by
block, loops that emit one block for each element, sums of remainders, and the block
of a concatenation that holds an element.
-/

namespace FreqAnalysis.Base

theorem forall_split_cons {α : Type} {P : List α → α → List α → Prop} (a : α) (l : List α) :
    (∀ pre b post, a :: l = pre ++ b :: post → P pre b post) ↔
      P [] a l ∧ ∀ pre b post, l = pre ++ b :: post → P (a :: pre) b post := by
  constructor
  · intro h
    exact ⟨h [] a l rfl, fun pre b post heq => h (a :: pre) b post (by rw [heq]; rfl)⟩
  · intro h pre b post heq
    cases pre with
    | nil =>
      obtain ⟨rfl, rfl⟩ := List.cons.inj heq
      exact h.1
    | cons c pre =>
      obtain ⟨rfl, htail⟩ := List.cons.inj heq
      exact h.2 pre b post htail

theorem forall₂_perm_filter {α : Type} [DecidableEq α] {blocks segs : List (List α)}
    (h : List.Forall₂ List.Perm blocks segs) :
    List.Forall₂ List.Perm (blocks.filter (· ≠ [])) (segs.filter (· ≠ [])) := by
  induction h with
  | nil => exact List.Forall₂.nil
  | @cons block seg blocks segs hperm _ ih =>
    by_cases hseg : seg = []
    · subst hseg
      have hblock : block = [] := hperm.eq_nil
      simpa [hblock] using ih
    · have hblock : block ≠ [] := fun h0 => hseg (h0 ▸ hperm).symm.eq_nil
      rw [List.filter_cons_of_pos (by simpa using hblock),
        List.filter_cons_of_pos (by simpa using hseg)]
      exact .cons hperm ih

/-- A loop that may fail emits a block for every element: what each iteration
says of its block (`S`) and of the states (`R`) holds of the whole loop. -/
theorem foldlM_blocks {σ α β : Type} {step : σ → α → Option σ} {S : List β → α → Prop}
    {R : σ → List β → σ → Prop} (hnil : ∀ s, R s [] s)
    (happend : ∀ {s a s1 b s2}, R s a s1 → R s1 b s2 → R s (a ++ b) s2) (l : List α)
    (hstep : ∀ x ∈ l, ∀ s, ∃ s' block, step s x = some s' ∧ S block x ∧ R s block s') (s : σ) :
    ∃ s' blocks, l.foldlM step s = some s' ∧ List.Forall₂ S blocks l ∧ R s blocks.flatten s' := by
  induction l generalizing s with
  | nil => exact ⟨s, [], rfl, List.Forall₂.nil, hnil s⟩
  | cons x l ih =>
    obtain ⟨s1, block, hone, hblock, h1⟩ := hstep x (List.mem_cons_self ..) s
    obtain ⟨s2, blocks, hrest, hblocks, h2⟩ :=
      ih (fun y hy => hstep y (List.mem_cons_of_mem _ hy)) s1
    have hrun : (x :: l).foldlM step s = some s2 := by
      rw [List.foldlM_cons, hone]
      exact hrest
    exact ⟨s2, block :: blocks, hrun, .cons hblock hblocks, happend h1 h2⟩

theorem map_fst_zip_sublist {α β : Type} (l : List α) (l' : List β) :
    ((l.zip l').map Prod.fst).Sublist l := by
  induction l generalizing l' with
  | nil => exact List.Sublist.refl _
  | cons a l ih =>
    cases l' with
    | nil => exact List.nil_sublist _
    | cons b l' => exact (ih l').cons_cons a

theorem sum_map_mod (l : List ℕ) (n : ℕ) : (l.map (· % n)).sum % n = l.sum % n := by
  induction l with
  | nil => rfl
  | cons a l ih =>
    rw [List.map_cons, List.sum_cons, List.sum_cons, Nat.add_mod, Nat.mod_mod, ih, ← Nat.add_mod]

theorem findIdx_of_nodup_flatten {α : Type} {ls : List (List α)} (h : ls.flatten.Nodup) {x : α}
    {p : List α → Bool} (hp : ∀ l, p l = true ↔ x ∈ l) {i : ℕ} (hi : i < ls.length)
    (hx : x ∈ ls[i]) : ls.findIdx p = i := by
  have hdisj := (List.nodup_flatten.mp h).2
  rw [List.findIdx_eq hi]
  refine ⟨(hp _).mpr hx, ?_⟩
  intro j hj
  have hij := List.pairwise_iff_getElem.mp hdisj j i (Nat.lt_trans hj hi) hi hj
  exact Bool.eq_false_iff.mpr fun hxj => hij ((hp _).mp hxj) hx

theorem mapM_eq_some_map {α β : Type*} {f : α → Option β} {g : α → β} {l : List α}
    (h : ∀ a ∈ l, f a = some (g a)) : l.mapM f = some (l.map g) := by
  induction l with
  | nil => rfl
  | cons a l ih =>
    rw [List.mapM_cons, h a List.mem_cons_self, ih fun b hb => h b (List.mem_cons_of_mem _ hb)]
    rfl

end FreqAnalysis.Base
