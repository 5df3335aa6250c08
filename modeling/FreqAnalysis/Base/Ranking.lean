import Mathlib.Data.List.Sort
import Mathlib.Tactic.SplitIfs

/-!
# Rankings by a count

A ranking of a list arranges it from the largest count to the smallest. Elements
with equal counts may stand in any order, so a list has several rankings; the
counts along a ranking are the same for all of them. The module also says what
happens when two lists, each sorted from the smallest count up, are paired from
their starts and the pairs are read backwards: the longer list is then read from
a later rank on.
-/

namespace FreqAnalysis.Base

section Ranking

variable {α β : Type} {count : α → ℕ}

structure Ranks (count : α → ℕ) (es l : List α) : Prop where
  perm : l.Perm es
  desc : l.Pairwise (fun a b => count b ≤ count a)

theorem Ranks.of_perm {es es' l : List α} (h : Ranks count es l) (hp : es.Perm es') :
    Ranks count es' l := ⟨h.perm.trans hp, h.desc⟩

theorem Ranks.map_count_eq {es l l' : List α} (h : Ranks count es l) (h' : Ranks count es l') :
    l.map count = l'.map count := by
  have hsorted : ∀ {m : List α}, Ranks count es m → (m.map count).Pairwise (fun a b => b ≤ a) :=
    fun hm => List.pairwise_map.mpr hm.desc
  refine ((h.perm.trans h'.perm.symm).map count).eq_of_pairwise ?_ (hsorted h) (hsorted h')
  intro a b _ _ hab hba
  omega

/-- At least `k` elements share the largest count. -/
def TopTied (count : α → ℕ) (k : ℕ) (es : List α) : Prop :=
  ∃ c, (∀ e ∈ es, count e ≤ c) ∧ k ≤ es.countP (fun e => count e = c)

theorem Ranks.count_le_head {es l : List α} {a : α} (h : Ranks count es (a :: l)) :
    ∀ e ∈ es, count e ≤ count a := by
  intro e he
  rcases List.mem_cons.mp (h.perm.mem_iff.mpr he) with rfl | hmem
  · exact le_rfl
  · exact (List.pairwise_cons.mp h.desc).1 e hmem

theorem Ranks.topTied {es r rest : List α} (h : Ranks count es (r ++ rest)) {c : ℕ}
    (hmax : ∀ e ∈ es, count e ≤ c) (hr : ∀ e ∈ r, count e = c) : TopTied count r.length es := by
  refine ⟨c, hmax, ?_⟩
  have hall : r.countP (fun e => count e = c) = r.length := by
    rw [List.countP_eq_length]
    intro e he
    simpa using hr e he
  rw [← h.perm.countP_eq, List.countP_append, hall]
  exact Nat.le_add_right _ _

theorem Ranks.eq_of_topTied {es r rest : List α} (h : Ranks count es (r ++ rest))
    (ht : TopTied count r.length es) :
    ∃ c, (∀ e ∈ es, count e ≤ c) ∧ ∀ e ∈ r, count e = c := by
  obtain ⟨c, hmax, hcount⟩ := ht
  refine ⟨c, hmax, ?_⟩
  by_contra hne
  push Not at hne
  obtain ⟨e, he, hec⟩ := hne
  obtain ⟨hdr, -, hcross⟩ := List.pairwise_append.mp h.desc
  have hle : ∀ x ∈ r ++ rest, count x ≤ c := fun x hx => hmax x (h.perm.mem_iff.mp hx)
  -- an element below the top count in `r` keeps `rest` below it as well
  have hrest : rest.countP (fun x => count x = c) = 0 := by
    rw [List.countP_eq_zero]
    intro x hx hxc
    have h1 := hcross e he x hx
    have h2 := hle e (List.mem_append_left _ he)
    have h3 : count x = c := by simpa using hxc
    omega
  have hlt : r.countP (fun x => count x = c) < r.length := by
    refine lt_of_le_of_ne List.countP_le_length ?_
    intro hfull
    exact hec (by simpa using List.countP_eq_length.mp hfull e he)
  rw [← h.perm.countP_eq, List.countP_append, hrest] at hcount
  omega

/-- When the first block of a ranking is tied, it may be rotated. -/
theorem Ranks.rotate {es r rest : List α} (h : Ranks count es (r ++ rest)) (d : ℕ) {c : ℕ}
    (hmax : ∀ e ∈ es, count e ≤ c) (hr : ∀ e ∈ r, count e = c) :
    Ranks count es (r.drop d ++ (r.take d ++ rest)) := by
  constructor
  · rw [← List.append_assoc]
    refine (List.Perm.append_right rest ?_).trans h.perm
    exact List.perm_append_comm.trans (List.Perm.of_eq (List.take_append_drop d r))
  · have hin : ∀ e ∈ r ++ rest, count e ≤ c := fun e he => hmax e (h.perm.mem_iff.mp he)
    have hrest := (List.pairwise_append.mp h.desc).2.1
    have htied : ∀ m : List α, (∀ e ∈ m, e ∈ r) → m.Pairwise (fun a b => count b ≤ count a) := by
      intro m hm
      apply List.pairwise_of_forall_mem_list
      intro a ha b hb
      rw [hr a (hm a ha), hr b (hm b hb)]
    refine List.pairwise_append.mpr ⟨htied _ (fun e he => List.mem_of_mem_drop he), ?_, ?_⟩
    · refine List.pairwise_append.mpr ⟨htied _ (fun e he => List.mem_of_mem_take he), hrest, ?_⟩
      intro a ha b hb
      rw [hr a (List.mem_of_mem_take ha)]
      exact hin b (List.mem_append_right _ hb)
    · intro a ha b hb
      rw [hr a (List.mem_of_mem_drop ha)]
      rcases List.mem_append.mp hb with hb | hb
      · exact hin b (List.mem_append_left _ (List.mem_of_mem_take hb))
      · exact hin b (List.mem_append_right _ hb)

/-- A falling list that does not change when its first `d` elements are dropped
is constant. -/
theorem eq_of_drop_eq_take {cs : List ℕ} {d k : ℕ} (hd : 0 < d) (hk : 0 < k)
    (hlen : cs.length = d + k) (hdesc : cs.Pairwise (fun a b => b ≤ a))
    (h : cs.drop d = cs.take k) (j : ℕ) (hj : j < cs.length) :
    cs[j] = cs[0] := by
  have hshift : ∀ i, (hi : i < k) → cs[d + i] = cs[i] := by
    intro i hi
    have h1 : (cs.drop d)[i]? = (cs.take k)[i]? := by rw [h]
    rw [List.getElem?_drop, List.getElem?_take_of_lt hi, List.getElem?_eq_getElem (by omega),
      List.getElem?_eq_getElem (by omega)] at h1
    exact Option.some.inj h1
  have hfall : ∀ i i', (hi : i < i') → (hi' : i' < cs.length) → cs[i'] ≤ cs[i] :=
    fun i i' hi hi' => List.pairwise_iff_getElem.mp hdesc i i' (by omega) hi' hi
  induction j using Nat.strongRecOn with
  | ind j ih =>
    by_cases hjd : j ≤ d
    · -- up to `d` the value lies between the first one and its copy at `d`
      have htop : cs[d] = cs[0] := hshift 0 hk
      rcases Nat.eq_zero_or_pos j with rfl | hpos
      · rfl
      · have h1 := hfall 0 j hpos hj
        have h2 : cs[d] ≤ cs[j] := by
          rcases Nat.lt_or_eq_of_le hjd with hlt | rfl
          · exact hfall j d hlt (by omega)
          · exact le_rfl
        omega
    · have hcopy : cs[d + (j - d)] = cs[j - d] := hshift (j - d) (by omega)
      have hprev := ih (j - d) (by omega) (by omega) hshift hfall
      have hidx : d + (j - d) = j := by omega
      simp only [hidx] at hcopy
      exact hcopy.trans hprev

theorem zip_append_left {l m : List α} {l' : List β} (h : l.length = l'.length) :
    (l ++ m).zip l' = l.zip l' := by
  have hzip : (l ++ m).zip (l' ++ []) = l.zip l' ++ m.zip [] := List.zip_append h
  rw [List.append_nil, List.zip_nil_right, List.append_nil] at hzip
  exact hzip

theorem reverse_zip_reverse {l : List α} {l' : List β} (h : l.length = l'.length) :
    (l.reverse.zip l'.reverse).reverse = l.zip l' := by
  have hrev : (List.zipWith Prod.mk l.reverse l'.reverse).reverse
      = List.zipWith Prod.mk l.reverse.reverse l'.reverse.reverse :=
    List.reverse_zipWith (by rw [List.length_reverse, List.length_reverse, h])
  rw [List.reverse_reverse, List.reverse_reverse] at hrev
  exact hrev

/-- Read backwards, the pairs start at the rank where the shorter list does. -/
theorem reverse_zip_reverse_of_length_le {r : List α} {r' : List β} (h : r'.length ≤ r.length) :
    (r.reverse.zip r'.reverse).reverse = (r.drop (r.length - r'.length)).zip r' := by
  have hsplit : r.reverse = (r.drop (r.length - r'.length)).reverse
      ++ (r.take (r.length - r'.length)).reverse := by
    rw [← List.reverse_append, List.take_append_drop]
  have hlen : (r.drop (r.length - r'.length)).length = r'.length := by
    rw [List.length_drop]
    omega
  rw [hsplit, zip_append_left (by rw [List.length_reverse, List.length_reverse, hlen]),
    reverse_zip_reverse hlen]

/-- Fewer than `i + 1` elements have a larger count than the one at rank `i`. -/
theorem Ranks.countP_lt_le {es l : List α} (h : Ranks count es l) {i : ℕ} (hi : i < l.length) :
    es.countP (fun c => count l[i] < count c) ≤ i := by
  have hsplit : l.take i ++ l.drop i = l := List.take_append_drop i l
  have hdrop : (l.drop i).countP (fun c => count l[i] < count c) = 0 := by
    rw [List.countP_eq_zero]
    intro c hc
    obtain ⟨j, hj, rfl⟩ := List.getElem_of_mem hc
    rw [List.getElem_drop, decide_eq_true_eq, Nat.not_lt]
    rcases Nat.eq_zero_or_pos j with rfl | hpos
    · exact le_rfl
    · rw [List.length_drop] at hj
      exact List.pairwise_iff_getElem.mp h.desc i (i + j) hi (by omega) (by omega)
  calc es.countP (fun c => count l[i] < count c)
      = (l.take i ++ l.drop i).countP (fun c => count l[i] < count c) := by
        rw [hsplit, h.perm.countP_eq]
    _ = (l.take i).countP (fun c => count l[i] < count c) := by
        rw [List.countP_append, hdrop, Nat.add_zero]
    _ ≤ (l.take i).length := List.countP_le_length
    _ ≤ i := by rw [List.length_take]; exact min_le_left _ _

/-- Equal counts occur only below the first `u` ranks. -/
def Untied (count : α → ℕ) (u : ℕ) (es : List α) : Prop :=
  ∀ a ∈ es, ∀ b ∈ es, count a = count b → a ≠ b → u ≤ es.countP (fun c => count a < count c)

/-- Without ties at the top, the first ranks of a list determine those of the
same list under other names. -/
theorem Ranks.take_map_of_untied {count' : β → ℕ} {f : α → β} {es l : List α} {l' : List β} {u : ℕ}
    (hf : ∀ a, count' (f a) = count a) (h : Ranks count es l) (h' : Ranks count' (es.map f) l')
    (hu : Untied count u es) : l'.take u = (l.take u).map f := by
  have hlen : l'.length = l.length := by
    rw [h'.perm.length_eq, List.length_map, h.perm.length_eq]
  have hmapped : Ranks count' (es.map f) (l.map f) := by
    refine ⟨h.perm.map f, List.pairwise_map.mpr (h.desc.imp ?_)⟩
    intro a b hab
    rw [hf, hf]
    exact hab
  have hcounts := h'.map_count_eq hmapped
  apply List.ext_getElem
  · rw [List.length_map, List.length_take, List.length_take, hlen]
  · intro i h1 h2
    rw [List.length_take] at h1
    have hi : i < l.length := by omega
    have hi' : i < l'.length := by omega
    rw [List.getElem_map, List.getElem_take, List.getElem_take]
    obtain ⟨b, hb, hfb⟩ := List.mem_map.mp (h'.perm.mem_iff.mp (List.getElem_mem hi'))
    have hcount : count l[i] = count b := by
      have hat : (l'.map count')[i]? = ((l.map f).map count')[i]? := by rw [hcounts]
      rw [List.getElem?_map, List.getElem?_map, List.getElem?_map, List.getElem?_eq_getElem hi',
        List.getElem?_eq_getElem hi, Option.map_some, Option.map_some, Option.map_some,
        Option.some.injEq, ← hfb, hf, hf] at hat
      exact hat.symm
    -- a different element of the same count would need `u` elements above it
    by_cases heq : l[i] = b
    · rw [heq, hfb]
    · have hmem : l[i] ∈ es := h.perm.mem_iff.mp (List.getElem_mem hi)
      have habove := hu _ hmem b hb hcount heq
      have hbelow := h.countP_lt_le hi
      omega

end Ranking
end FreqAnalysis.Base
