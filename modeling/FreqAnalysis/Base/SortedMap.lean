import Mathlib.Algebra.GroupWithZero.Nat
import Mathlib.Data.List.Pairwise
import Mathlib.Data.List.Nodup
import Mathlib.Order.Lattice
import Mathlib.Tactic.SplitIfs

/-!
# Ordered key-value store

An embedded store with `Get`, `Put` and `Delete` whose iterator visits the keys
in increasing order. The entries are a list that is strictly increasing in its
keys, so a store is determined by its contents and an iteration is the list
itself.
-/

namespace FreqAnalysis.Base

structure SortedMap (K V : Type) [LinearOrder K] where
  entries : List (K × V)
  sorted : entries.Pairwise (fun a b => a.1 < b.1)

namespace SortedMap

variable {K V : Type} [LinearOrder K]

def empty : SortedMap K V := ⟨[], List.Pairwise.nil⟩

def keys (m : SortedMap K V) : List K := m.entries.map Prod.fst

/-- `Get`: `none` stands for the status `NotFound`. -/
def get (m : SortedMap K V) (k : K) : Option V :=
  (m.entries.find? (fun e => e.1 = k)).map Prod.snd

def insertEntry (k : K) (v : V) : List (K × V) → List (K × V)
  | [] => [(k, v)]
  | e :: es =>
    if k < e.1 then (k, v) :: e :: es
    else if k = e.1 then (k, v) :: es
    else e :: insertEntry k v es

theorem mem_insertEntry (k : K) (v : V) (l : List (K × V)) (a : K × V)
    (h : a ∈ insertEntry k v l) : a = (k, v) ∨ a ∈ l := by
  induction l with
  | nil => simpa [insertEntry] using h
  | cons e es ih =>
    simp only [insertEntry] at h
    split_ifs at h with hlt heq
    · exact List.mem_cons.mp h
    · rcases List.mem_cons.mp h with h | h
      · exact Or.inl h
      · exact Or.inr (List.mem_cons_of_mem _ h)
    · rcases List.mem_cons.mp h with h | h
      · exact Or.inr (h ▸ List.mem_cons_self ..)
      · rcases ih h with h | h
        · exact Or.inl h
        · exact Or.inr (List.mem_cons_of_mem _ h)

theorem insertEntry_sorted (k : K) (v : V) (l : List (K × V))
    (h : l.Pairwise (fun a b => a.1 < b.1)) :
    (insertEntry k v l).Pairwise (fun a b => a.1 < b.1) := by
  induction l with
  | nil => simp [insertEntry]
  | cons e es ih =>
    obtain ⟨hhead, htail⟩ := List.pairwise_cons.mp h
    simp only [insertEntry]
    split_ifs with hlt heq
    · refine List.pairwise_cons.mpr ⟨?_, h⟩
      intro b hb
      rcases List.mem_cons.mp hb with hb | hb
      · rw [hb]
        exact hlt
      · exact hlt.trans (hhead b hb)
    · refine List.pairwise_cons.mpr ⟨?_, htail⟩
      intro b hb
      exact lt_of_eq_of_lt heq (hhead b hb)
    · refine List.pairwise_cons.mpr ⟨?_, ih htail⟩
      intro b hb
      rcases mem_insertEntry k v es b hb with hb | hb
      · rw [hb]
        exact lt_of_le_of_ne (not_lt.mp hlt) (Ne.symm heq)
      · exact hhead b hb

def put (m : SortedMap K V) (k : K) (v : V) : SortedMap K V :=
  ⟨insertEntry k v m.entries, insertEntry_sorted k v m.entries m.sorted⟩

def delete (m : SortedMap K V) (k : K) : SortedMap K V :=
  ⟨m.entries.filter (fun e => e.1 ≠ k), m.sorted.filter _⟩

theorem nodup_keys (m : SortedMap K V) : m.keys.Nodup := by
  have h : m.keys.Pairwise (· < ·) := List.pairwise_map.mpr m.sorted
  exact h.imp (fun hab => ne_of_lt hab)

theorem get_eq_some_iff (m : SortedMap K V) (k : K) (v : V) :
    m.get k = some v ↔ (k, v) ∈ m.entries := by
  constructor
  · intro h
    obtain ⟨e, he, hv⟩ := Option.map_eq_some_iff.mp h
    have hk : e.1 = k := by simpa using List.find?_some he
    have hmem := List.mem_of_find?_eq_some he
    rw [← hk, ← hv]
    exact hmem
  · intro h
    obtain ⟨e, he⟩ : ∃ e, m.entries.find? (fun e => e.1 = k) = some e := by
      apply Option.isSome_iff_exists.mp
      rw [List.find?_isSome]
      exact ⟨(k, v), h, by simp⟩
    have hk : e.1 = k := by simpa using List.find?_some he
    have hmem := List.mem_of_find?_eq_some he
    -- two entries of one key are the same entry, since the keys are distinct
    have hinj := List.inj_on_of_nodup_map (f := Prod.fst) m.nodup_keys
    have heq : e = (k, v) := hinj hmem h hk
    simp [get, he, heq]

theorem mem_keys_iff (m : SortedMap K V) (k : K) : k ∈ m.keys ↔ ∃ v, m.get k = some v := by
  constructor
  · intro h
    obtain ⟨e, he, rfl⟩ := List.mem_map.mp h
    exact ⟨e.2, (m.get_eq_some_iff e.1 e.2).mpr he⟩
  · rintro ⟨v, hv⟩
    exact List.mem_map.mpr ⟨(k, v), (m.get_eq_some_iff k v).mp hv, rfl⟩

theorem get_eq_none_iff (m : SortedMap K V) (k : K) : m.get k = none ↔ k ∉ m.keys := by
  rw [mem_keys_iff, Option.eq_none_iff_forall_ne_some]
  exact (not_exists (p := fun v => m.get k = some v)).symm

theorem find?_insertEntry_self (k : K) (v : V) (l : List (K × V)) :
    (insertEntry k v l).find? (fun e => e.1 = k) = some (k, v) := by
  induction l with
  | nil => simp [insertEntry]
  | cons e es ih =>
    simp only [insertEntry]
    split_ifs with hlt heq
    · simp
    · simp
    · rw [List.find?_cons_of_neg (by simpa using Ne.symm heq), ih]

theorem find?_insertEntry_ne (k k' : K) (v : V) (l : List (K × V)) (h : k' ≠ k) :
    (insertEntry k v l).find? (fun e => e.1 = k') = l.find? (fun e => e.1 = k') := by
  have hk : ¬ k = k' := Ne.symm h
  induction l with
  | nil => simp [insertEntry, hk]
  | cons e es ih =>
    simp only [insertEntry]
    split_ifs with hlt heq
    · rw [List.find?_cons_of_neg (by simpa using hk)]
    · rw [List.find?_cons_of_neg (by simpa using hk),
        List.find?_cons_of_neg (by simpa [← heq] using hk)]
    · simp only [List.find?_cons, ih]

theorem get_put (m : SortedMap K V) (k k' : K) (v : V) :
    (m.put k v).get k' = if k' = k then some v else m.get k' := by
  split_ifs with h
  · rw [h, get, put, find?_insertEntry_self]
    rfl
  · rw [get, put, find?_insertEntry_ne k k' v m.entries h]
    rfl

@[simp] theorem get_put_self (m : SortedMap K V) (k : K) (v : V) :
    (m.put k v).get k = some v := by
  simp [get_put]

theorem get_put_ne (m : SortedMap K V) (k k' : K) (v : V) (h : k' ≠ k) :
    (m.put k v).get k' = m.get k' := by
  simp [get_put, h]

theorem get_delete (m : SortedMap K V) (k k' : K) :
    (m.delete k).get k' = if k' = k then none else m.get k' := by
  split_ifs with h
  · rw [get_eq_none_iff]
    intro hk
    obtain ⟨e, he, hek⟩ := List.mem_map.mp hk
    have hne := (List.mem_filter.mp he).2
    simp only [ne_eq, decide_not, Bool.not_eq_true', decide_eq_false_iff_not] at hne
    exact hne (hek.trans h)
  · refine Option.ext fun v => ?_
    rw [get_eq_some_iff, get_eq_some_iff]
    simp [delete, List.mem_filter, h]

theorem mem_keys_put (m : SortedMap K V) (k k' : K) (v : V) :
    k' ∈ (m.put k v).keys ↔ k' = k ∨ k' ∈ m.keys := by
  rw [mem_keys_iff, mem_keys_iff]
  by_cases h : k' = k
  · simp [h]
  · simp [get_put, h]

theorem length_insertEntry (k : K) (v : V) (l : List (K × V)) (h : ∀ e ∈ l, e.1 ≠ k) :
    (insertEntry k v l).length = l.length + 1 := by
  induction l with
  | nil => rfl
  | cons e es ih =>
    have he : ¬ k = e.1 := fun h' => h e (List.mem_cons_self ..) h'.symm
    have hes : ∀ a ∈ es, a.1 ≠ k := fun a ha => h a (List.mem_cons_of_mem _ ha)
    simp only [insertEntry, he, if_false]
    split_ifs
    · rfl
    · simp [ih hes]

theorem length_put_new (m : SortedMap K V) (k : K) (v : V) (h : k ∉ m.keys) :
    (m.put k v).entries.length = m.entries.length + 1 := by
  apply length_insertEntry k v m.entries
  intro e he hek
  exact h (List.mem_map.mpr ⟨e, he, hek⟩)

theorem ext_get (m m' : SortedMap K V) (h : ∀ k, m.get k = m'.get k) : m = m' := by
  have hnodup : ∀ m : SortedMap K V, m.entries.Nodup := fun m => m.nodup_keys.of_map
  have hperm : m.entries.Perm m'.entries := by
    rw [List.perm_ext_iff_of_nodup (hnodup m) (hnodup m')]
    rintro ⟨k, v⟩
    rw [← get_eq_some_iff, ← get_eq_some_iff, h k]
  have hentries : m.entries = m'.entries := by
    refine hperm.eq_of_pairwise ?_ m.sorted m'.sorted
    intro a b _ _ hab hba
    exact absurd (hab.trans hba) (lt_irrefl _)
  cases m
  cases m'
  cases hentries
  rfl

/-! ### Many puts -/

def putAll (m : SortedMap K V) (ps : List (K × V)) : SortedMap K V :=
  ps.foldl (fun m p => m.put p.1 p.2) m

/-- No key is put with two values. -/
def Functional (ps : List (K × V)) : Prop := ∀ p ∈ ps, ∀ q ∈ ps, p.1 = q.1 → p.2 = q.2

theorem get_putAll_of_not_mem (m : SortedMap K V) (ps : List (K × V)) (k : K)
    (h : k ∉ ps.map Prod.fst) : (m.putAll ps).get k = m.get k := by
  induction ps generalizing m with
  | nil => rfl
  | cons p ps ih =>
    obtain ⟨hp, hps⟩ : ¬ k = p.1 ∧ k ∉ ps.map Prod.fst := by
      rwa [List.map_cons, List.mem_cons, not_or] at h
    exact (ih (m.put p.1 p.2) hps).trans (m.get_put_ne p.1 k p.2 hp)

theorem get_putAll_of_mem (m : SortedMap K V) (ps : List (K × V)) (hf : Functional ps)
    (p : K × V) (hp : p ∈ ps) : (m.putAll ps).get p.1 = some p.2 := by
  induction ps generalizing m p with
  | nil => cases hp
  | cons q ps ih =>
    have hf' : Functional ps :=
      fun a ha b hb => hf a (List.mem_cons_of_mem _ ha) b (List.mem_cons_of_mem _ hb)
    by_cases hlater : p.1 ∈ ps.map Prod.fst
    · obtain ⟨r, hr, hkey⟩ := List.mem_map.mp hlater
      have hval : r.2 = p.2 := hf r (List.mem_cons_of_mem _ hr) p hp hkey
      rw [← hkey, ← hval]
      exact ih (m.put q.1 q.2) hf' r hr
    · have hq : p = q := by
        rcases List.mem_cons.mp hp with h | h
        · exact h
        · exact absurd (List.mem_map.mpr ⟨p, h, rfl⟩) hlater
      subst hq
      exact (get_putAll_of_not_mem (m.put p.1 p.2) ps p.1 hlater).trans (get_put_self ..)

theorem putAll_perm (m : SortedMap K V) {ps ps' : List (K × V)} (hf : Functional ps)
    (h : ps.Perm ps') : m.putAll ps = m.putAll ps' := by
  have hf' : Functional ps' :=
    fun a ha b hb => hf a (h.mem_iff.mpr ha) b (h.mem_iff.mpr hb)
  apply ext_get
  intro k
  by_cases hk : k ∈ ps.map Prod.fst
  · obtain ⟨p, hp, rfl⟩ := List.mem_map.mp hk
    rw [get_putAll_of_mem m ps hf p hp, get_putAll_of_mem m ps' hf' p (h.mem_iff.mp hp)]
  · have hk' : k ∉ ps'.map Prod.fst := fun hmem => hk ((h.map Prod.fst).mem_iff.mpr hmem)
    rw [get_putAll_of_not_mem m ps k hk, get_putAll_of_not_mem m ps' k hk']

/-! ### Counting through a map -/

section Count

variable [BEq K] [LawfulBEq K]

theorem sum_count_cons (es : List (K × V)) (k : K) (ks : List K) :
    (es.map fun e => (k :: ks).count e.1).sum
      = (es.map fun e => ks.count e.1).sum + es.countP (fun e => e.1 = k) := by
  induction es with
  | nil => rfl
  | cons e es ih =>
    rw [List.map_cons, List.map_cons, List.sum_cons, List.sum_cons, ih, List.count_cons,
      List.countP_cons]
    by_cases hk : e.1 = k
    · simp [hk]
      omega
    · have hk' : ¬ k = e.1 := fun h => hk h.symm
      simp [hk, hk']
      omega

variable [DecidableEq V] [BEq V] [LawfulBEq V]

theorem countP_entries (m : SortedMap K V) (k : K) (x : V) :
    (m.entries.filter (fun e => e.2 = x)).countP (fun e => e.1 = k)
      = if m.get k = some x then 1 else 0 := by
  have hpred : ∀ e ∈ m.entries,
      (decide (e.1 = k) && decide (e.2 = x)) = true ↔ (e == (k, x)) = true := by
    rintro ⟨k', x'⟩ _
    simp [Prod.ext_iff]
  rw [List.countP_filter, List.countP_congr hpred, ← List.count_eq_countP,
    List.Nodup.count m.nodup_keys.of_map]
  simp only [get_eq_some_iff]

/-- When a map sends every first component to the second, a value occurs as
often as the keys mapped to it together. -/
theorem count_eq_sum (m : SortedMap K V) (ps : List (K × V))
    (h : ∀ p ∈ ps, m.get p.1 = some p.2) (x : V) :
    (ps.map Prod.snd).count x
      = ((m.entries.filter (fun e => e.2 = x)).map fun e => (ps.map Prod.fst).count e.1).sum := by
  induction ps with
  | nil => simp
  | cons p ps ih =>
    have hp : m.get p.1 = some p.2 := h p (List.mem_cons_self ..)
    have hps : ∀ q ∈ ps, m.get q.1 = some q.2 := fun q hq => h q (List.mem_cons_of_mem _ hq)
    rw [List.map_cons, List.map_cons, sum_count_cons, ← ih hps, countP_entries, hp,
      List.count_cons]
    simp

end Count

end SortedMap
end FreqAnalysis.Base
