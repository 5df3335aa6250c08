import Mathlib.Data.List.Induction
import Mathlib.Data.List.Nodup
import Mathlib.Algebra.BigOperators.Group.List.Basic
import Mathlib.Algebra.GroupWithZero.Nat

/-!
# Tallies

Distinct values with positive counts, in the order of first occurrence. A value
is counted by a scan that increments the first match or appends a new entry, so
the tally of a list is determined by the list.
-/

namespace FreqAnalysis.Base

structure Tally (α : Type) where
  entries : List (α × ℕ)
  nodup : (entries.map Prod.fst).Nodup
  pos : ∀ e ∈ entries, 0 < e.2

namespace Tally

variable {α : Type} [DecidableEq α]

def empty : Tally α := ⟨[], List.nodup_nil, fun _ h => absurd h List.not_mem_nil⟩

def bumpEntries (y : α) : List (α × ℕ) → List (α × ℕ)
  | [] => [(y, 1)]
  | e :: es => if e.1 = y then (e.1, e.2 + 1) :: es else e :: bumpEntries y es

def countIn (y : α) : List (α × ℕ) → ℕ
  | [] => 0
  | e :: es => if e.1 = y then e.2 else countIn y es

theorem mem_keys_bumpEntries (y z : α) (es : List (α × ℕ)) :
    z ∈ (bumpEntries y es).map Prod.fst ↔ z = y ∨ z ∈ es.map Prod.fst := by
  induction es with
  | nil => simp [bumpEntries]
  | cons e es ih =>
    unfold bumpEntries
    by_cases h : e.1 = y
    · rw [if_pos h, ← h]
      simp only [List.map_cons, List.mem_cons]
      tauto
    · simp only [if_neg h, List.map_cons, List.mem_cons, ih]
      tauto

theorem nodup_bumpEntries (y : α) (es : List (α × ℕ)) (h : (es.map Prod.fst).Nodup) :
    ((bumpEntries y es).map Prod.fst).Nodup := by
  induction es with
  | nil => simp [bumpEntries]
  | cons e es ih =>
    obtain ⟨hnot, hes⟩ := List.nodup_cons.mp h
    unfold bumpEntries
    by_cases hy : e.1 = y
    · rw [if_pos hy]
      exact h
    · rw [if_neg hy, List.map_cons, List.nodup_cons]
      refine ⟨?_, ih hes⟩
      intro hmem
      rcases (mem_keys_bumpEntries y e.1 es).mp hmem with heq | hold
      · exact hy heq
      · exact hnot hold

theorem pos_bumpEntries (y : α) (es : List (α × ℕ)) (h : ∀ e ∈ es, 0 < e.2) :
    ∀ e ∈ bumpEntries y es, 0 < e.2 := by
  induction es with
  | nil => simp [bumpEntries]
  | cons e es ih =>
    obtain ⟨he, hes⟩ := List.forall_mem_cons.mp h
    unfold bumpEntries
    by_cases hy : e.1 = y
    · rw [if_pos hy]
      exact List.forall_mem_cons.mpr ⟨Nat.succ_pos _, hes⟩
    · rw [if_neg hy]
      exact List.forall_mem_cons.mpr ⟨he, ih hes⟩

def bump (y : α) (t : Tally α) : Tally α :=
  ⟨bumpEntries y t.entries, nodup_bumpEntries y t.entries t.nodup,
    pos_bumpEntries y t.entries t.pos⟩

def count (y : α) (t : Tally α) : ℕ := countIn y t.entries

def total (t : Tally α) : ℕ := (t.entries.map Prod.snd).sum

def ofList (l : List α) : Tally α := l.foldl (fun t y => t.bump y) empty

theorem ofList_concat (l : List α) (y : α) : ofList (l ++ [y]) = (ofList l).bump y := by
  simp [ofList]

theorem countIn_bumpEntries (y z : α) (es : List (α × ℕ)) :
    countIn z (bumpEntries y es) = countIn z es + if y = z then 1 else 0 := by
  induction es with
  | nil =>
    by_cases h : y = z <;> simp [bumpEntries, countIn, h]
  | cons e es ih =>
    by_cases hy : e.1 = y
    · by_cases hz : y = z
      · simp [bumpEntries, countIn, hy, hz]
      · simp [bumpEntries, countIn, hy, hz]
    · have hbump : bumpEntries y (e :: es) = e :: bumpEntries y es := if_neg hy
      by_cases hz : e.1 = z
      · have hyz : ¬ y = z := fun h => hy (hz.trans h.symm)
        simp [hbump, countIn, hz, hyz]
      · simp [hbump, countIn, hz, ih]

theorem sum_bumpEntries (y : α) (es : List (α × ℕ)) :
    ((bumpEntries y es).map Prod.snd).sum = (es.map Prod.snd).sum + 1 := by
  induction es with
  | nil => rfl
  | cons e es ih =>
    unfold bumpEntries
    by_cases hy : e.1 = y
    · simp only [hy, if_true, List.map_cons, List.sum_cons]
      omega
    · simp only [hy, if_false, List.map_cons, List.sum_cons, ih]
      omega

theorem count_ofList [BEq α] [LawfulBEq α] (l : List α) (z : α) :
    (ofList l).count z = l.count z := by
  induction l using List.reverseRecOn with
  | nil => rfl
  | append_singleton l y ih =>
    have hb : ((ofList l).bump y).count z = (ofList l).count z + if y = z then 1 else 0 :=
      countIn_bumpEntries y z (ofList l).entries
    rw [ofList_concat, hb, ih, List.count_append, List.count_singleton]
    simp only [beq_iff_eq]

theorem total_ofList (l : List α) : (ofList l).total = l.length := by
  induction l using List.reverseRecOn with
  | nil => rfl
  | append_singleton l y ih =>
    have hb : ((ofList l).bump y).total = (ofList l).total + 1 :=
      sum_bumpEntries y (ofList l).entries
    rw [ofList_concat, hb, ih, List.length_append, List.length_singleton]

theorem mem_countIn (es : List (α × ℕ)) (hn : (es.map Prod.fst).Nodup) (hp : ∀ e ∈ es, 0 < e.2)
    (z : α) (n : ℕ) : (z, n) ∈ es ↔ 0 < n ∧ countIn z es = n := by
  induction es with
  | nil =>
    simp only [List.not_mem_nil, countIn, false_iff, not_and]
    omega
  | cons e es ih =>
    obtain ⟨hnot, hes⟩ := List.nodup_cons.mp hn
    obtain ⟨he, hps⟩ := List.forall_mem_cons.mp hp
    have hrec := ih hes hps
    unfold countIn
    by_cases hz : e.1 = z
    · -- the key occurs here and nowhere else
      have hno : (z, n) ∉ es := fun hm => hnot (hz ▸ List.mem_map.mpr ⟨(z, n), hm, rfl⟩)
      rw [if_pos hz, List.mem_cons]
      constructor
      · rintro (heq | hm)
        · subst heq
          exact ⟨he, rfl⟩
        · exact absurd hm hno
      · rintro ⟨-, rfl⟩
        exact Or.inl (Prod.ext hz.symm rfl)
    · have hne : (z, n) ≠ e := fun heq => hz (heq ▸ rfl)
      rw [if_neg hz, List.mem_cons, ← hrec]
      tauto

theorem mem_entries_iff (t : Tally α) (z : α) (n : ℕ) :
    (z, n) ∈ t.entries ↔ 0 < n ∧ t.count z = n :=
  mem_countIn t.entries t.nodup t.pos z n

theorem entries_ofList_eq_nil_iff (l : List α) : (ofList l).entries = [] ↔ l = [] := by
  constructor
  · intro h
    have ht := total_ofList l
    rw [total, h] at ht
    exact List.eq_nil_of_length_eq_zero ht.symm
  · rintro rfl
    rfl

theorem mem_keys_ofList (l : List α) (z : α) : z ∈ (ofList l).entries.map Prod.fst ↔ z ∈ l := by
  induction l using List.reverseRecOn with
  | nil => exact Iff.rfl
  | append_singleton l y ih =>
    rw [ofList_concat, List.mem_append, List.mem_singleton, ← ih]
    exact (mem_keys_bumpEntries y z (ofList l).entries).trans or_comm

section Map

variable {β : Type} [DecidableEq β] (f : α → β)

theorem bumpEntries_map (y : α) (es : List (α × ℕ))
    (hf : ∀ e ∈ es, f e.1 = f y → e.1 = y) :
    bumpEntries (f y) (es.map (Prod.map f id)) = (bumpEntries y es).map (Prod.map f id) := by
  induction es with
  | nil => rfl
  | cons e es ih =>
    obtain ⟨he, hes⟩ := List.forall_mem_cons.mp hf
    rw [List.map_cons]
    unfold bumpEntries
    by_cases hy : e.1 = y
    · have hfy : (Prod.map f id e).1 = f y := congrArg f hy
      rw [if_pos hy, if_pos hfy]
      rfl
    · have hfy : ¬ (Prod.map f id e).1 = f y := fun h => hy (he h)
      rw [if_neg hy, if_neg hfy, ih hes]
      rfl

/-- The tally of a renamed list is the renamed tally. -/
theorem entries_ofList_map (l : List α) (hf : ∀ a ∈ l, ∀ b ∈ l, f a = f b → a = b) :
    (ofList (l.map f)).entries = (ofList l).entries.map (Prod.map f id) := by
  induction l using List.reverseRecOn with
  | nil => rfl
  | append_singleton l y ih =>
    have hl : ∀ a ∈ l, ∀ b ∈ l, f a = f b → a = b := fun a ha b hb =>
      hf a (List.mem_append_left _ ha) b (List.mem_append_left _ hb)
    have hy : ∀ e ∈ (ofList l).entries, f e.1 = f y → e.1 = y := by
      intro e he
      have hmem : e.1 ∈ l := (mem_keys_ofList l e.1).mp (List.mem_map.mpr ⟨e, he, rfl⟩)
      exact hf e.1 (List.mem_append_left _ hmem) y (List.mem_append_right _ (List.mem_singleton_self y))
    rw [List.map_append, List.map_singleton, ofList_concat, ofList_concat]
    show bumpEntries (f y) (ofList (l.map f)).entries = (bumpEntries y (ofList l).entries).map _
    rw [ih hl, bumpEntries_map f y _ hy]

end Map
end Tally
end FreqAnalysis.Base
