import FreqAnalysis.Base.Heap
import Mathlib.Data.List.Sort

/-!
# Selection with a bounded queue

A queue of at most `k` elements over which a stream is passed: an element is
pushed while there is room, and afterwards replaces the top when it is less than
the top. With a strict weak order the queue then holds `k` least elements of the
stream. (A frequency analysis calls the element with the larger count the lesser
one, so that the top is the one to give up first.)
-/

namespace FreqAnalysis.Base.Heap

section Select

variable {α : Type} (lt : α → α → Bool)

/-- One element of the stream. The top of an empty queue is never read when
`0 < k`. -/
def offer (k : ℕ) (q : List α) (e : α) : List α :=
  if q.length < k then push lt q e
  else
    match q.head? with
    | none => q
    | some m => if lt e m then push lt (pop lt q) e else q

def select (k : ℕ) (es : List α) : List α := es.foldl (offer lt k) []

theorem mem_offer {k : ℕ} {q : List α} {e a : α} (h : a ∈ offer lt k q e) : a = e ∨ a ∈ q := by
  unfold offer at h
  split_ifs at h with hroom
  · exact List.mem_cons.mp ((push_perm lt q e).mem_iff.mp h)
  · cases q with
    | nil => exact Or.inr h
    | cons m rest =>
      simp only [List.head?_cons] at h
      split_ifs at h with hless
      · have hmem := List.mem_cons.mp ((push_perm lt _ e).mem_iff.mp h)
        rw [(pop_cons_perm lt m rest).mem_iff] at hmem
        exact hmem.imp_right (List.mem_cons_of_mem m)
      · exact Or.inr h

theorem mem_foldl_offer {k : ℕ} {es q : List α} {a : α} (h : a ∈ es.foldl (offer lt k) q) :
    a ∈ es ∨ a ∈ q := by
  induction es generalizing q with
  | nil => exact Or.inr h
  | cons e es ih =>
    rcases ih h with hes | hq
    · exact Or.inl (List.mem_cons_of_mem e hes)
    · rcases mem_offer lt hq with rfl | hq
      · exact Or.inl (List.mem_cons_self ..)
      · exact Or.inr hq

theorem mem_select {k : ℕ} {es : List α} {a : α} (h : a ∈ select lt k es) : a ∈ es := by
  rcases mem_foldl_offer lt h with hes | hnil
  · exact hes
  · exact absurd hnil List.not_mem_nil

/-- While there is room every element is pushed, whatever the bounded queue does later. -/
theorem foldl_room_perm {k : ℕ} {step : List α → α → List α}
    (hstep : ∀ q e, q.length < k → step q e = push lt q e) (es q : List α)
    (h : q.length + es.length ≤ k) : (es.foldl step q).Perm (q ++ es) := by
  induction es generalizing q with
  | nil =>
    rw [List.append_nil]
    exact .refl _
  | cons e es ih =>
    rw [List.length_cons] at h
    have hlen := push_length lt q e
    rw [List.foldl_cons, hstep q e (by omega)]
    exact (ih _ (by omega)).trans (((push_perm lt q e).append_right es).trans List.perm_middle.symm)

end Select

section Order

variable {α : Type} {lt : α → α → Bool}

structure Selection (lt : α → α → Bool) (k : ℕ) (es q : List α) : Prop where
  heap : IsHeap lt q
  size : q.length = min k es.length
  kept : ∃ out, (q ++ out).Perm es ∧ ∀ d ∈ out, ∀ a ∈ q, lt d a = false

theorem selection_nil (k : ℕ) : Selection lt k [] [] :=
  ⟨isHeap_nil, by simp, [], List.Perm.refl _, fun _ hd => absurd hd List.not_mem_nil⟩

theorem Selection.grow (h : StrictWeak lt) {k : ℕ} {es q : List α} (hs : Selection lt k es q)
    (hroom : q.length < k) (e : α) : Selection lt k (es ++ [e]) (push lt q e) := by
  obtain ⟨out, hperm, hout⟩ := hs.kept
  have hsize := hs.size
  have htotal := hperm.length_eq
  rw [List.length_append] at htotal
  -- with room left nothing was dropped yet
  have hnil : out = [] := List.eq_nil_of_length_eq_zero (by omega)
  rw [hnil, List.append_nil] at hperm
  refine ⟨push_isHeap h q e hs.heap, ?_, [], ?_, fun d hd => absurd hd List.not_mem_nil⟩
  · rw [push_length, List.length_append, List.length_singleton]
    omega
  · rw [List.append_nil]
    exact (push_perm lt q e).trans
      ((hperm.cons e).trans (List.perm_append_singleton e es).symm)

theorem Selection.replace (h : StrictWeak lt) {k : ℕ} {es rest : List α} {m : α}
    (hs : Selection lt k es (m :: rest)) (e : α) (hless : lt e m = true)
    (hfull : ¬ (m :: rest).length < k) :
    Selection lt k (es ++ [e]) (push lt (pop lt (m :: rest)) e) := by
  obtain ⟨out, hperm, hout⟩ := hs.kept
  have hsize := hs.size
  have htop := hs.heap.top h (a := m) rfl
  have hpush : (push lt (pop lt (m :: rest)) e).Perm (e :: rest) :=
    (push_perm lt _ e).trans ((pop_cons_perm lt m rest).cons e)
  refine ⟨push_isHeap h _ e (pop_isHeap h _ hs.heap), ?_, m :: out, ?_, ?_⟩
  · rw [hpush.length_eq, List.length_append, List.length_singleton, List.length_cons]
    rw [List.length_cons] at hsize hfull
    omega
  · have h1 : (e :: rest ++ m :: out).Perm (e :: (m :: rest ++ out)) :=
      (List.perm_middle).cons e
    exact (hpush.append_right _).trans
      ((h1.trans (hperm.cons e)).trans (List.perm_append_singleton e es).symm)
  · -- what is dropped does not beat the old top, which does not beat what is kept
    intro d hd a ha
    have hme := h.asymm e m hless
    have hdm : lt d m = false := by
      rcases List.mem_cons.mp hd with rfl | hd
      · exact htop d (List.mem_cons_self ..)
      · exact hout d hd m (List.mem_cons_self ..)
    rcases List.mem_cons.mp (hpush.mem_iff.mp ha) with rfl | ha
    · exact h.negTrans d m a hdm hme
    · exact h.negTrans d m a hdm (htop a (List.mem_cons_of_mem _ ha))

theorem Selection.reject (h : StrictWeak lt) {k : ℕ} {es rest : List α} {m : α}
    (hs : Selection lt k es (m :: rest)) (e : α) (hnot : lt e m = false)
    (hfull : ¬ (m :: rest).length < k) : Selection lt k (es ++ [e]) (m :: rest) := by
  obtain ⟨out, hperm, hout⟩ := hs.kept
  have hsize := hs.size
  have htop := hs.heap.top h (a := m) rfl
  refine ⟨hs.heap, ?_, e :: out, ?_, ?_⟩
  · rw [List.length_append, List.length_singleton]
    omega
  · exact List.perm_middle.trans
      ((hperm.cons e).trans (List.perm_append_singleton e es).symm)
  · intro d hd a ha
    rcases List.mem_cons.mp hd with rfl | hd
    · exact h.negTrans d m a hnot (htop a ha)
    · exact hout d hd a ha

theorem Selection.offer (h : StrictWeak lt) {k : ℕ} (hk : 0 < k) {es q : List α}
    (hs : Selection lt k es q) (e : α) : Selection lt k (es ++ [e]) (offer lt k q e) := by
  unfold Heap.offer
  by_cases hroom : q.length < k
  · rw [if_pos hroom]
    exact hs.grow h hroom e
  · rw [if_neg hroom]
    cases q with
    | nil => exact absurd hk (by simpa using hroom)
    | cons m rest =>
      simp only [List.head?_cons]
      by_cases hless : lt e m = true
      · rw [if_pos hless]
        exact hs.replace h e hless hroom
      · rw [if_neg hless]
        exact hs.reject h e (by simpa using hless) hroom

theorem foldl_offer_selection (h : StrictWeak lt) {k : ℕ} (hk : 0 < k) (es : List α)
    {seen q : List α} (hs : Selection lt k seen q) :
    Selection lt k (seen ++ es) (es.foldl (offer lt k) q) := by
  induction es generalizing seen q with
  | nil => simpa using hs
  | cons e es ih =>
    have := ih (hs.offer h hk e)
    rwa [List.append_assoc, List.singleton_append] at this

theorem select_selection (h : StrictWeak lt) {k : ℕ} (hk : 0 < k) (es : List α) :
    Selection lt k es (select lt k es) := foldl_offer_selection h hk es (selection_nil k)

/-- The stack a queue is drained onto, read from its top, begins an arrangement
of all elements seen from the least to the greatest. -/
theorem Selection.ranked (h : StrictWeak lt) {k : ℕ} {es q : List α}
    (hs : Selection lt k es q) :
    ∃ rest, ((drain lt q).reverse ++ rest).Perm es ∧
      ((drain lt q).reverse ++ rest).Pairwise (fun a b => lt b a = false) := by
  obtain ⟨out, hperm, hout⟩ := hs.kept
  let r : α → α → Prop := fun a b => lt b a = false
  have htotal : ∀ a b, r a b ∨ r b a := by
    intro a b
    cases hab : lt b a with
    | false => exact Or.inl hab
    | true => exact Or.inr (h.asymm b a hab)
  have htrans : ∀ a b c, r a b → r b c → r a c := fun a b c hab hbc => h.negTrans c b a hbc hab
  have : Std.Total r := ⟨htotal⟩
  have : IsTrans α r := ⟨htrans⟩
  have hdrain := drain_perm lt q
  have hsort := List.perm_insertionSort r out
  refine ⟨List.insertionSort r out, ?_, List.pairwise_append.mpr ⟨?_, ?_, ?_⟩⟩
  · exact (((List.reverse_perm _).trans hdrain).append hsort).trans hperm
  · exact List.pairwise_reverse.mpr (drain_sorted h q hs.heap)
  · exact List.pairwise_insertionSort r out
  · intro a ha b hb
    exact hout b (hsort.mem_iff.mp hb) a (hdrain.mem_iff.mp (List.mem_reverse.mp ha))

end Order

section Least

variable {α : Type} [LinearOrder α]

def least (k : ℕ) (l : List α) : List α := (l.insertionSort (· ≤ ·)).take k

/-- The least elements of a list, as a multiset, are those that nothing left out is
less than. -/
theorem perm_least_iff {l q out : List α} (h : (q ++ out).Perm l) :
    q.Perm (least q.length l) ↔ ∀ a ∈ q, ∀ d ∈ out, a ≤ d := by
  have hsort := List.perm_insertionSort (· ≤ ·) l
  have hsorted := List.pairwise_insertionSort (· ≤ ·) l
  constructor
  · intro hq a ha d hd
    have hsplit : least q.length l ++ (l.insertionSort (· ≤ ·)).drop q.length
        = l.insertionSort (· ≤ ·) := List.take_append_drop _ _
    have hall : (least q.length l ++ out).Perm
        (least q.length l ++ (l.insertionSort (· ≤ ·)).drop q.length) := by
      rw [hsplit]
      exact (hq.symm.append_right out).trans (h.trans hsort.symm)
    have hout := (List.perm_append_left_iff _).mp hall
    rw [← hsplit] at hsorted
    exact (List.pairwise_append.mp hsorted).2.2 a (hq.mem_iff.mp ha) d (hout.mem_iff.mp hd)
  · intro hle
    have hq := List.perm_insertionSort (· ≤ ·) q
    have hout := List.perm_insertionSort (· ≤ ·) out
    have hjoin : (q.insertionSort (· ≤ ·) ++ out.insertionSort (· ≤ ·)).Pairwise (· ≤ ·) := by
      refine List.pairwise_append.mpr ⟨List.pairwise_insertionSort (· ≤ ·) q,
        List.pairwise_insertionSort (· ≤ ·) out, ?_⟩
      intro a ha d hd
      exact hle a (hq.mem_iff.mp ha) d (hout.mem_iff.mp hd)
    have heq : q.insertionSort (· ≤ ·) ++ out.insertionSort (· ≤ ·) = l.insertionSort (· ≤ ·) := by
      refine (((hq.append hout).trans h).trans hsort.symm).eq_of_pairwise ?_ hjoin hsorted
      intro a b _ _ hab hba
      exact le_antisymm hab hba
    have htake : least q.length l = q.insertionSort (· ≤ ·) := by
      rw [least, ← heq, List.take_left' hq.length_eq]
    rw [htake]
    exact hq.symm

end Least

section Map

variable {α β : Type} {lt : α → α → Bool} {lt' : β → β → Bool} {f : α → β}

theorem offer_map (hf : ∀ a b, lt' (f a) (f b) = lt a b) (k : ℕ) (q : List α) (e : α) :
    offer lt' k (q.map f) (f e) = (offer lt k q e).map f := by
  unfold offer
  rw [List.length_map, push_map hf, pop_map hf, push_map hf, List.head?_map]
  cases q.head? with
  | none => split_ifs <;> rfl
  | some m =>
    simp only [Option.map_some, hf]
    split_ifs <;> rfl

/-- A selection sees the comparison only. -/
theorem select_map (hf : ∀ a b, lt' (f a) (f b) = lt a b) (k : ℕ) (es : List α) :
    select lt' k (es.map f) = (select lt k es).map f := by
  have hfold : ∀ q : List α, (es.map f).foldl (offer lt' k) (q.map f)
      = (es.foldl (offer lt k) q).map f := by
    induction es with
    | nil => exact fun _ => rfl
    | cons e es ih =>
      intro q
      rw [List.map_cons, List.foldl_cons, List.foldl_cons, offer_map hf, ih]
  exact hfold []

end Map
end FreqAnalysis.Base.Heap
