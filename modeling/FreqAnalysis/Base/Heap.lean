import Mathlib.Data.List.Basic
import Mathlib.Data.List.Perm.Basic
import Mathlib.Logic.Function.Iterate
import Mathlib.Order.Basic
import Mathlib.Tactic.SplitIfs

/-!
# Binary heaps in an array

`std::priority_queue` over a vector: `push_heap` lets the new last element climb
while its parent is less, and `pop_heap` moves the last element to the root, lets
it sink along the greater child down to a leaf and climb from there. The library
shifts elements into a hole and stores the moving element at the end; exchanging
at every step, as here, gives the same arrangement. Nothing is assumed of the
comparison `lt` in the definitions; the order of the elements needs a strict weak
order.
-/

namespace FreqAnalysis.Base.Heap

section Operations

variable {α : Type} (lt : α → α → Bool)

/-- The element at `i` is less than the one at `j`; false out of range. -/
def ltAt (l : List α) (i j : ℕ) : Bool :=
  match l[i]?, l[j]? with
  | some a, some b => lt a b
  | _, _ => false

def parent (i : ℕ) : ℕ := (i - 1) / 2

def siftUp : ℕ → List α → ℕ → List α
  | 0, l, _ => l
  | fuel + 1, l, i =>
    if 0 < i ∧ ltAt lt l (parent i) i = true then siftUp fuel (l.swap i (parent i)) (parent i)
    else l

/-- The element at `i` sinks to a leaf; the position it reaches is returned. -/
def siftDown : ℕ → List α → ℕ → List α × ℕ
  | 0, l, i => (l, i)
  | fuel + 1, l, i =>
    if 2 * i + 2 < l.length then
      let c := if ltAt lt l (2 * i + 2) (2 * i + 1) then 2 * i + 1 else 2 * i + 2
      siftDown fuel (l.swap i c) c
    else if 2 * i + 1 < l.length then (l.swap i (2 * i + 1), 2 * i + 1)
    else (l, i)

def push (l : List α) (a : α) : List α := siftUp lt l.length (l ++ [a]) l.length

def pop : List α → List α
  | [] => []
  | _ :: rest =>
    match rest.getLast? with
    | none => []
    | some v =>
      let r := siftDown lt rest.length (v :: rest.dropLast) 0
      siftUp lt r.2 r.1 r.2

/-- The elements in the order in which `top` and `pop` return them. -/
def drainFrom : ℕ → List α → List α
  | 0, _ => []
  | _ + 1, [] => []
  | fuel + 1, a :: l => a :: drainFrom fuel (pop lt (a :: l))

def drain (l : List α) : List α := drainFrom lt l.length l

/-! ### The elements stay the same -/

theorem siftUp_perm (fuel : ℕ) (l : List α) (i : ℕ) : (siftUp lt fuel l i).Perm l := by
  induction fuel generalizing l i with
  | zero => exact List.Perm.refl l
  | succ fuel ih =>
    unfold siftUp
    split_ifs
    · exact (ih _ _).trans (List.swap_perm l i (parent i))
    · exact List.Perm.refl l

theorem siftDown_perm (fuel : ℕ) (l : List α) (i : ℕ) : (siftDown lt fuel l i).1.Perm l := by
  induction fuel generalizing l i with
  | zero => exact List.Perm.refl l
  | succ fuel ih =>
    unfold siftDown
    split_ifs
    · exact (ih _ _).trans (List.swap_perm l i _)
    · exact (ih _ _).trans (List.swap_perm l i _)
    · exact List.swap_perm l i _
    · exact List.Perm.refl l

theorem push_perm (l : List α) (a : α) : (push lt l a).Perm (a :: l) :=
  (siftUp_perm lt _ _ _).trans (List.perm_append_singleton a l)

theorem pop_concat (a : α) (mid : List α) (v : α) :
    pop lt (a :: (mid ++ [v])) =
      siftUp lt (siftDown lt (mid ++ [v]).length (v :: mid) 0).2
        (siftDown lt (mid ++ [v]).length (v :: mid) 0).1
        (siftDown lt (mid ++ [v]).length (v :: mid) 0).2 := by
  simp only [pop, List.getLast?_concat, List.dropLast_concat]

theorem pop_cons_perm (a : α) (rest : List α) : (pop lt (a :: rest)).Perm rest := by
  rcases List.eq_nil_or_concat rest with rfl | ⟨mid, v, rfl⟩
  · exact List.Perm.refl _
  · rw [List.concat_eq_append, pop_concat]
    exact (siftUp_perm lt _ _ _).trans
      ((siftDown_perm lt _ _ _).trans (List.perm_append_singleton v mid).symm)

theorem push_length (l : List α) (a : α) : (push lt l a).length = l.length + 1 :=
  (push_perm lt l a).length_eq

theorem pop_length (l : List α) : (pop lt l).length = l.length - 1 := by
  cases l with
  | nil => rfl
  | cons a rest => exact (pop_cons_perm lt a rest).length_eq

theorem drain_cons (a : α) (l : List α) : drain lt (a :: l) = a :: drain lt (pop lt (a :: l)) := by
  have hlen : (pop lt (a :: l)).length = l.length := pop_length lt (a :: l)
  rw [drain, drain, hlen]
  rfl

theorem iterate_pop_length (n : ℕ) (l : List α) : ((pop lt)^[n] l).length = l.length - n := by
  induction n generalizing l with
  | zero => rfl
  | succ n ih =>
    rw [Function.iterate_succ_apply, ih, pop_length]
    omega

theorem mem_iterate_pop {n : ℕ} {l : List α} {a : α} (h : a ∈ (pop lt)^[n] l) : a ∈ l := by
  induction n generalizing l with
  | zero => exact h
  | succ n ih =>
    rw [Function.iterate_succ_apply] at h
    cases l with
    | nil => exact ih h
    | cons b l => exact List.mem_cons_of_mem b ((pop_cons_perm lt b l).mem_iff.mp (ih h))

theorem drainFrom_perm (fuel : ℕ) (l : List α) (h : l.length ≤ fuel) :
    (drainFrom lt fuel l).Perm l := by
  induction fuel generalizing l with
  | zero =>
    have hnil : l = [] := List.eq_nil_of_length_eq_zero (by omega)
    subst hnil
    exact List.Perm.nil
  | succ fuel ih =>
    cases l with
    | nil => exact List.Perm.nil
    | cons a rest =>
      have hlen := pop_length lt (a :: rest)
      rw [List.length_cons] at hlen h
      exact ((ih _ (by omega)).trans (pop_cons_perm lt a rest)).cons a

theorem drain_perm (l : List α) : (drain lt l).Perm l := drainFrom_perm lt _ l (Nat.le_refl _)

end Operations

/-! ### Order -/

structure StrictWeak {α : Type} (lt : α → α → Bool) : Prop where
  asymm : ∀ a b, lt a b = true → lt b a = false
  negTrans : ∀ a b c, lt a b = false → lt b c = false → lt a c = false

section Order

variable {α : Type} {lt : α → α → Bool}

/-- No element is greater than its parent. -/
def IsHeap (lt : α → α → Bool) (l : List α) : Prop :=
  ∀ j, 0 < j → ltAt lt l (parent j) j = false

/-- A heap but for the element at `i`, which may be greater than its parents. -/
structure Climbing (lt : α → α → Bool) (l : List α) (i : ℕ) : Prop where
  other : ∀ j, 0 < j → j ≠ i → ltAt lt l (parent j) j = false
  grand : 0 < i → ∀ j, 0 < j → parent j = i → ltAt lt l (parent i) j = false

/-- A heap but for the element at `i`, of which nothing is known. -/
structure Sinking (lt : α → α → Bool) (l : List α) (i : ℕ) : Prop where
  other : ∀ j, 0 < j → j ≠ i → parent j ≠ i → ltAt lt l (parent j) j = false
  grand : 0 < i → ∀ j, 0 < j → parent j = i → ltAt lt l (parent i) j = false

theorem parent_lt {i : ℕ} (h : 0 < i) : parent i < i := by
  unfold parent
  omega

theorem parent_eq_iff {i j : ℕ} (h : 0 < j) : parent j = i ↔ j = 2 * i + 1 ∨ j = 2 * i + 2 := by
  unfold parent
  omega

theorem ltAt_of_le_left {l : List α} {i : ℕ} (j : ℕ) (h : l.length ≤ i) :
    ltAt lt l i j = false := by
  simp [ltAt, List.getElem?_eq_none h]

theorem ltAt_of_le_right {l : List α} (i : ℕ) {j : ℕ} (h : l.length ≤ j) :
    ltAt lt l i j = false := by
  unfold ltAt
  rw [List.getElem?_eq_none h]
  split <;> simp_all

theorem ltAt_of_lt {l : List α} {i j : ℕ} (hi : i < l.length) (hj : j < l.length) :
    ltAt lt l i j = lt l[i] l[j] := by
  simp [ltAt, List.getElem?_eq_getElem hi, List.getElem?_eq_getElem hj]

theorem lt_length_of_ltAt {l : List α} {i j : ℕ} (h : ltAt lt l i j = true) :
    i < l.length ∧ j < l.length := by
  constructor
  · by_contra hi
    rw [ltAt_of_le_left j (by omega)] at h
    cases h
  · by_contra hj
    rw [ltAt_of_le_right i (by omega)] at h
    cases h

def swapIndex (i j k : ℕ) : ℕ := if k = i then j else if k = j then i else k

theorem getElem?_swap (l : List α) {i j : ℕ} (hi : i < l.length) (hj : j < l.length) (k : ℕ) :
    (l.swap i j)[k]? = l[swapIndex i j k]? := by
  rw [List.swap_eq_of_lt hi hj]
  unfold swapIndex
  by_cases hkj : k = j
  · subst hkj
    rw [List.getElem?_set_self (by simpa using hj), ← List.getElem?_eq_getElem hi]
    by_cases hki : k = i
    · rw [if_pos hki, hki]
    · rw [if_neg hki, if_pos rfl]
  · rw [List.getElem?_set_ne (Ne.symm hkj), if_neg hkj]
    by_cases hki : k = i
    · subst hki
      rw [if_pos rfl, List.getElem?_set_self hi, List.getElem?_eq_getElem hj]
    · rw [if_neg hki, List.getElem?_set_ne (Ne.symm hki)]

theorem ltAt_swap (l : List α) {i j : ℕ} (hi : i < l.length) (hj : j < l.length) (a b : ℕ) :
    ltAt lt (l.swap i j) a b = ltAt lt l (swapIndex i j a) (swapIndex i j b) := by
  simp only [ltAt, getElem?_swap l hi hj]

theorem swapIndex_left (i j : ℕ) : swapIndex i j i = j := if_pos rfl

theorem swapIndex_right (i j : ℕ) : swapIndex i j j = i := by
  by_cases h : j = i
  · rw [h, swapIndex_left]
  · rw [swapIndex, if_neg h, if_pos rfl]

theorem swapIndex_ne {i j k : ℕ} (hi : k ≠ i) (hj : k ≠ j) : swapIndex i j k = k := by
  rw [swapIndex, if_neg hi, if_neg hj]

namespace StrictWeak

theorem ltAt_asymm (h : StrictWeak lt) {l : List α} {i j : ℕ} (hij : ltAt lt l i j = true) :
    ltAt lt l j i = false := by
  obtain ⟨hi, hj⟩ := lt_length_of_ltAt hij
  rw [ltAt_of_lt hi hj] at hij
  rw [ltAt_of_lt hj hi]
  exact h.asymm _ _ hij

theorem ltAt_negTrans (h : StrictWeak lt) {l : List α} {i j k : ℕ} (hj : j < l.length)
    (hij : ltAt lt l i j = false) (hjk : ltAt lt l j k = false) : ltAt lt l i k = false := by
  rcases Nat.lt_or_ge i l.length with hi | hi
  · rcases Nat.lt_or_ge k l.length with hk | hk
    · rw [ltAt_of_lt hi hj] at hij
      rw [ltAt_of_lt hj hk] at hjk
      rw [ltAt_of_lt hi hk]
      exact h.negTrans _ _ _ hij hjk
    · exact ltAt_of_le_right i hk
  · exact ltAt_of_le_left k hi

theorem ltAt_of_greater (h : StrictWeak lt) {l : List α} {i j k : ℕ}
    (hij : ltAt lt l i j = true) (hik : ltAt lt l i k = false) : ltAt lt l j k = false :=
  h.ltAt_negTrans (lt_length_of_ltAt hij).1 (h.ltAt_asymm hij) hik

end StrictWeak

theorem Climbing.swap (h : StrictWeak lt) {l : List α} {i : ℕ} (hc : Climbing lt l i) (hi : 0 < i)
    (hlt : ltAt lt l (parent i) i = true) : Climbing lt (l.swap i (parent i)) (parent i) := by
  obtain ⟨hp, hil⟩ := lt_length_of_ltAt hlt
  have hpi := parent_lt hi
  constructor
  · intro j hj hjp
    rw [ltAt_swap l hil hp]
    by_cases hji : j = i
    · subst hji
      rw [swapIndex_right, swapIndex_left]
      exact h.ltAt_asymm hlt
    · rw [swapIndex_ne hji hjp]
      by_cases hpj : parent j = i
      · rw [hpj, swapIndex_left]
        exact hc.grand hi j hj hpj
      · by_cases hpp : parent j = parent i
        · -- the sibling is below the parent, and the parent is below `i`
          have hsib := hc.other j hj hji
          rw [hpp] at hsib
          rw [hpp, swapIndex_right]
          exact h.ltAt_of_greater hlt hsib
        · rw [swapIndex_ne hpj hpp]
          exact hc.other j hj hji
  · intro hp0 j hj hpj
    have hup := hc.other (parent i) hp0 (by omega)
    have hpp := parent_lt hp0
    rw [ltAt_swap l hil hp, swapIndex_ne (by omega) (by omega)]
    by_cases hji : j = i
    · subst hji
      rw [swapIndex_left]
      exact hup
    · have hjp : j ≠ parent i := by
        have := parent_lt hj
        omega
      rw [swapIndex_ne hji hjp]
      have hsib := hc.other j hj hji
      rw [hpj] at hsib
      exact h.ltAt_negTrans hp hup hsib

/-- An element that is above all others for `lt` climbs to the root, whatever relation
`lt` is. -/
theorem siftUp_head (fuel : ℕ) (l : List α) (i : ℕ) (hf : i ≤ fuel) {e : α} (hi : l[i]? = some e)
    (hall : ∀ j, j ≠ i → ∀ a, l[j]? = some a → lt a e = true) :
    (siftUp lt fuel l i)[0]? = some e := by
  induction fuel generalizing l i with
  | zero =>
    obtain rfl : i = 0 := by omega
    exact hi
  | succ fuel ih =>
    unfold siftUp
    rcases Nat.eq_zero_or_pos i with rfl | hpos
    · rw [if_neg (fun h => absurd h.1 (Nat.lt_irrefl 0))]
      exact hi
    · have hp := parent_lt hpos
      have hil : i < l.length := (List.getElem?_eq_some_iff.mp hi).1
      have hpl : parent i < l.length := by omega
      have hlt : ltAt lt l (parent i) i = true := by
        simp only [ltAt, hi, List.getElem?_eq_getElem hpl]
        exact hall (parent i) (by omega) _ (List.getElem?_eq_getElem hpl)
      rw [if_pos ⟨hpos, hlt⟩]
      apply ih _ _ (by omega)
      · rw [getElem?_swap l hil hpl, swapIndex_right]
        exact hi
      · intro j hj a ha
        rw [getElem?_swap l hil hpl] at ha
        by_cases hji : j = i
        · rw [hji, swapIndex_left] at ha
          exact hall (parent i) (by omega) a ha
        · rw [swapIndex_ne hji hj] at ha
          exact hall j hji a ha

theorem push_head {l : List α} {e : α} (h : ∀ a ∈ l, lt a e = true) :
    (push lt l e).head? = some e := by
  rw [List.head?_eq_getElem?]
  apply siftUp_head _ _ _ (Nat.le_refl _)
  · exact List.getElem?_concat_length
  · intro j hj a ha
    rcases Nat.lt_or_ge j l.length with hlt | hge
    · rw [List.getElem?_append_left hlt] at ha
      exact h a (List.mem_of_getElem? ha)
    · rw [List.getElem?_eq_none (by rw [List.length_append, List.length_singleton]; omega)] at ha
      cases ha

/-- In a heap of at most three elements the root is the parent of all others. -/
theorem push_head_small {a e : α} {l : List α} (h : (a :: l).length ≤ 2) :
    (push lt (a :: l) e).head? = some (if lt a e then e else a) := by
  match l, h with
  | [], _ => cases hlt : lt a e <;> simp [push, siftUp, ltAt, parent, hlt]
  | [b], _ => cases hlt : lt a e <;> simp [push, siftUp, ltAt, parent, hlt]

theorem siftUp_isHeap (h : StrictWeak lt) (fuel : ℕ) (l : List α) (i : ℕ) (hf : i ≤ fuel)
    (hc : Climbing lt l i) : IsHeap lt (siftUp lt fuel l i) := by
  induction fuel generalizing l i with
  | zero =>
    have hi : i = 0 := by omega
    subst hi
    intro j hj
    exact hc.other j hj (by omega)
  | succ fuel ih =>
    unfold siftUp
    by_cases hcond : 0 < i ∧ ltAt lt l (parent i) i = true
    · rw [if_pos hcond]
      have hpi := parent_lt hcond.1
      exact ih _ _ (by omega) (hc.swap h hcond.1 hcond.2)
    · rw [if_neg hcond]
      intro j hj
      by_cases hji : j = i
      · subst hji
        cases hlt : ltAt lt l (parent j) j with
        | false => rfl
        | true => exact absurd ⟨hj, hlt⟩ hcond
      · exact hc.other j hj hji

theorem Sinking.swap {l : List α} {i c : ℕ} (hs : Sinking lt l i)
    (hc : c < l.length) (hchild : c = 2 * i + 1 ∨ c = 2 * i + 2)
    (hbest : ∀ j, j = 2 * i + 1 ∨ j = 2 * i + 2 → j ≠ c → ltAt lt l c j = false) :
    Sinking lt (l.swap i c) c := by
  have hi : i < l.length := by omega
  have hic : i ≠ c := by omega
  have hc0 : 0 < c := by omega
  have hpc : parent c = i := (parent_eq_iff hc0).mpr hchild
  constructor
  · intro j hj hjc hpjc
    rw [ltAt_swap l hi hc]
    by_cases hji : j = i
    · subst hji
      have hpj := parent_lt hj
      rw [swapIndex_left, swapIndex_ne (by omega) (by omega)]
      exact hs.grand hj c hc0 hpc
    · rw [swapIndex_ne hji hjc]
      by_cases hpj : parent j = i
      · rw [hpj, swapIndex_left]
        exact hbest j ((parent_eq_iff hj).mp hpj) hjc
      · rw [swapIndex_ne hpj hpjc]
        exact hs.other j hj hji hpj
  · intro _ j hj hpj
    have hjc := parent_lt hj
    rw [ltAt_swap l hi hc, hpc, swapIndex_left, swapIndex_ne (by omega) (by omega), ← hpj]
    exact hs.other j hj (by omega) (by omega)

theorem Sinking.climbing {l : List α} {i : ℕ} (hs : Sinking lt l i)
    (hleaf : l.length ≤ 2 * i + 1) : Climbing lt l i := by
  have hno : ∀ k j, 0 < j → parent j = i → ltAt lt l k j = false := by
    intro k j hj hpj
    apply ltAt_of_le_right k
    rcases (parent_eq_iff hj).mp hpj with h | h <;> omega
  constructor
  · intro j hj hji
    by_cases hpj : parent j = i
    · exact hno _ j hj hpj
    · exact hs.other j hj hji hpj
  · intro _ j hj hpj
    exact hno _ j hj hpj

theorem siftDown_climbing (h : StrictWeak lt) (fuel : ℕ) (l : List α) (i : ℕ)
    (hf : l.length ≤ i + fuel) (hs : Sinking lt l i) :
    Climbing lt (siftDown lt fuel l i).1 (siftDown lt fuel l i).2 := by
  induction fuel generalizing l i with
  | zero => exact hs.climbing (by omega)
  | succ fuel ih =>
    unfold siftDown
    by_cases hr : 2 * i + 2 < l.length
    · rw [if_pos hr]
      cases hcmp : ltAt lt l (2 * i + 2) (2 * i + 1) with
      | true =>
        refine ih _ _ (by rw [List.length_swap]; simp only [if_true]; omega) ?_
        refine hs.swap (by simp only [if_true]; omega) (Or.inl rfl) ?_
        intro j hj hjc
        simp only [if_true] at hjc ⊢
        obtain rfl : j = 2 * i + 2 := by omega
        exact h.ltAt_asymm hcmp
      | false =>
        refine ih _ _ (by rw [List.length_swap]; simp only [Bool.false_eq_true, if_false]; omega) ?_
        refine hs.swap hr (Or.inr rfl) ?_
        intro j hj hjc
        simp only [Bool.false_eq_true, if_false] at hjc ⊢
        obtain rfl : j = 2 * i + 1 := by omega
        exact hcmp
    · rw [if_neg hr]
      by_cases hl : 2 * i + 1 < l.length
      · rw [if_pos hl]
        have hs' : Sinking lt (l.swap i (2 * i + 1)) (2 * i + 1) := by
          refine hs.swap hl (Or.inl rfl) ?_
          intro j hj hjc
          exact ltAt_of_le_right _ (by omega)
        exact hs'.climbing (by rw [List.length_swap]; omega)
      · rw [if_neg hl]
        exact hs.climbing (by omega)

theorem isHeap_nil : IsHeap lt ([] : List α) := fun _ _ => rfl

theorem push_isHeap (h : StrictWeak lt) (l : List α) (a : α) (hl : IsHeap lt l) :
    IsHeap lt (push lt l a) := by
  apply siftUp_isHeap h _ _ _ (Nat.le_refl _)
  constructor
  · intro j hj hjl
    rcases Nat.lt_or_ge j l.length with hlt | hge
    · have hp := parent_lt hj
      have hpl : parent j < l.length := by omega
      have := hl j hj
      simp only [ltAt, List.getElem?_append_left hlt, List.getElem?_append_left hpl] at this ⊢
      exact this
    · apply ltAt_of_le_right _
      rw [List.length_append, List.length_singleton]
      omega
  · intro _ j hj hpj
    apply ltAt_of_le_right _
    have := parent_lt hj
    rw [List.length_append, List.length_singleton]
    omega

theorem pop_isHeap (h : StrictWeak lt) (l : List α) (hl : IsHeap lt l) : IsHeap lt (pop lt l) := by
  cases l with
  | nil => exact isHeap_nil
  | cons a rest =>
    rcases List.eq_nil_or_concat rest with rfl | ⟨mid, v, rfl⟩
    · exact isHeap_nil
    · rw [List.concat_eq_append] at hl ⊢
      rw [pop_concat]
      refine siftUp_isHeap h _ _ _ (Nat.le_refl _) (siftDown_climbing h _ _ _ ?_ ?_)
      · simp
      · constructor
        · -- away from the root the two lists agree
          intro j hj _ hpj
          rcases Nat.lt_or_ge j (mid.length + 1) with hlt | hge
          · have hp := parent_lt hj
            have hread : ∀ k, 0 < k → k < mid.length + 1 →
                (v :: mid)[k]? = (a :: (mid ++ [v]))[k]? := by
              intro k hk hkl
              obtain ⟨k, rfl⟩ : ∃ m, k = m + 1 := ⟨k - 1, by omega⟩
              rw [List.getElem?_cons_succ, List.getElem?_cons_succ,
                List.getElem?_append_left (by omega)]
            have := hl j hj
            simp only [ltAt, hread j hj hlt, hread (parent j) (by omega) (by omega)]
            exact this
          · exact ltAt_of_le_right _ hge
        · intro h0
          omega

theorem IsHeap.top {l : List α} {a : α} (h : StrictWeak lt) (hl : IsHeap lt l)
    (ha : l.head? = some a) : ∀ b ∈ l, lt a b = false := by
  have hat : ∀ j, j < l.length → ltAt lt l 0 j = false := by
    intro j
    induction j using Nat.strongRecOn with
    | ind j ih =>
      intro hj
      rcases Nat.eq_zero_or_pos j with rfl | hpos
      · cases hself : ltAt lt l 0 0 with
        | false => rfl
        | true => exact (Bool.noConfusion ((h.ltAt_asymm hself).symm.trans hself))
      · have hp := parent_lt hpos
        exact h.ltAt_negTrans (by omega) (ih (parent j) hp (by omega)) (hl j hpos)
  intro b hb
  obtain ⟨j, hj, rfl⟩ := List.getElem_of_mem hb
  have h0 : 0 < l.length := by omega
  have htop : l[0] = a := by
    rw [List.head?_eq_getElem?, List.getElem?_eq_getElem h0, Option.some.injEq] at ha
    exact ha
  have := hat j hj
  rw [ltAt_of_lt h0 hj, htop] at this
  exact this

theorem drainFrom_sorted (h : StrictWeak lt) (fuel : ℕ) (l : List α) (hf : l.length ≤ fuel)
    (hl : IsHeap lt l) : (drainFrom lt fuel l).Pairwise (fun a b => lt a b = false) := by
  induction fuel generalizing l with
  | zero => exact List.Pairwise.nil
  | succ fuel ih =>
    cases l with
    | nil => exact List.Pairwise.nil
    | cons a rest =>
      have hlen := pop_length lt (a :: rest)
      rw [List.length_cons] at hlen hf
      refine List.Pairwise.cons ?_ (ih _ (by omega) (pop_isHeap h _ hl))
      intro b hb
      have hmem : b ∈ rest := (pop_cons_perm lt a rest).mem_iff.mp
        ((drainFrom_perm lt fuel _ (by omega)).mem_iff.mp hb)
      exact hl.top h rfl b (List.mem_cons_of_mem _ hmem)

theorem drain_sorted (h : StrictWeak lt) (l : List α) (hl : IsHeap lt l) :
    (drain lt l).Pairwise (fun a b => lt a b = false) := drainFrom_sorted h _ l (Nat.le_refl _) hl

end Order

/-! ### Renaming the elements -/

section Map

variable {α β : Type} {lt : α → α → Bool} {lt' : β → β → Bool} {f : α → β}

theorem ltAt_map (hf : ∀ a b, lt' (f a) (f b) = lt a b) (l : List α) (i j : ℕ) :
    ltAt lt' (l.map f) i j = ltAt lt l i j := by
  unfold ltAt
  rw [List.getElem?_map, List.getElem?_map]
  cases l[i]? with
  | none => rfl
  | some a =>
    cases l[j]? with
    | none => rfl
    | some b => exact hf a b

theorem swap_map (l : List α) (i j : ℕ) : (l.map f).swap i j = (l.swap i j).map f := by
  rcases Nat.lt_or_ge i l.length with hi | hi
  · rcases Nat.lt_or_ge j l.length with hj | hj
    · rw [List.swap_eq_of_lt hi hj,
        List.swap_eq_of_lt (by rw [List.length_map]; exact hi) (by rw [List.length_map]; exact hj),
        List.map_set, List.map_set, List.getElem_map, List.getElem_map]
    · rw [List.swap_eq_of_ge_right hj, List.swap_eq_of_ge_right (by rw [List.length_map]; exact hj)]
  · rw [List.swap_eq_of_ge_left hi, List.swap_eq_of_ge_left (by rw [List.length_map]; exact hi)]

theorem siftUp_map (hf : ∀ a b, lt' (f a) (f b) = lt a b) (fuel : ℕ) (l : List α) (i : ℕ) :
    siftUp lt' fuel (l.map f) i = (siftUp lt fuel l i).map f := by
  induction fuel generalizing l i with
  | zero => rfl
  | succ fuel ih =>
    unfold siftUp
    rw [ltAt_map hf, swap_map, ih]
    split_ifs
    · rfl
    · rfl

theorem siftDown_map (hf : ∀ a b, lt' (f a) (f b) = lt a b) (fuel : ℕ) (l : List α) (i : ℕ) :
    siftDown lt' fuel (l.map f) i
      = ((siftDown lt fuel l i).1.map f, (siftDown lt fuel l i).2) := by
  induction fuel generalizing l i with
  | zero => rfl
  | succ fuel ih =>
    unfold siftDown
    rw [ltAt_map hf, List.length_map]
    simp only [swap_map, ih]
    split_ifs
    · rfl
    · rfl
    · rfl
    · rfl

theorem push_map (hf : ∀ a b, lt' (f a) (f b) = lt a b) (l : List α) (a : α) :
    push lt' (l.map f) (f a) = (push lt l a).map f := by
  have hl : l.map f ++ [f a] = (l ++ [a]).map f := by rw [List.map_append, List.map_singleton]
  rw [push, push, List.length_map, hl, siftUp_map hf]

theorem pop_map (hf : ∀ a b, lt' (f a) (f b) = lt a b) (l : List α) :
    pop lt' (l.map f) = (pop lt l).map f := by
  cases l with
  | nil => rfl
  | cons a rest =>
    rcases List.eq_nil_or_concat rest with rfl | ⟨mid, v, rfl⟩
    · rfl
    · have hcons : (a :: mid.concat v).map f = f a :: (mid.map f ++ [f v]) := by
        rw [List.concat_eq_append, List.map_cons, List.map_append, List.map_singleton]
      have hlen : (mid.map f ++ [f v]).length = (mid ++ [v]).length := by
        rw [List.length_append, List.length_append, List.length_map]
        rfl
      rw [hcons, List.concat_eq_append, pop_concat, pop_concat, hlen, ← List.map_cons,
        siftDown_map hf, siftUp_map hf]

theorem drain_map (hf : ∀ a b, lt' (f a) (f b) = lt a b) (l : List α) :
    drain lt' (l.map f) = (drain lt l).map f := by
  have hfrom : ∀ fuel (l : List α),
      drainFrom lt' fuel (l.map f) = (drainFrom lt fuel l).map f := by
    intro fuel
    induction fuel with
    | zero => exact fun _ => rfl
    | succ fuel ih =>
      intro l
      cases l with
      | nil => rfl
      | cons a rest =>
        have hpop := pop_map hf (a :: rest)
        rw [List.map_cons] at hpop
        rw [List.map_cons, drainFrom, hpop, ih]
        rfl
  rw [drain, drain, List.length_map, hfrom]

end Map
end FreqAnalysis.Base.Heap
