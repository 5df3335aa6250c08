import FreqAnalysis.Basic.Attack

/-!
# Databases larger than the queue (ReadDbs)

The first `Max_lenth` entries of a database, in key order, fill the queue. From then
on the top is replaced whenever a larger count arrives: the largest count of the
first entries is given up, and then each of its successors, while the other first
entries stay whatever their counts are. So the most frequent chunks survive only when
there is nothing to choose.
-/

namespace FreqAnalysis.Basic
open Base

/-- `que` holds as many entries as it may, and nothing left out is more frequent than
something kept. -/
def MostFrequent (maxLenth : ℕ) (es que : List Node) : Prop :=
  que.length = min es.length maxLenth ∧
    ∃ out, (que ++ out).Perm es ∧ ∀ d ∈ out, ∀ a ∈ que, d.count ≤ a.count

/-! ### After the queue is full -/

-- the first entries are still there, and none of `seen` is larger than all of them
def Unchanged (first seen que : List Node) : Prop :=
  que.Perm first ∧ ∀ d ∈ seen, ∃ a ∈ first, d.count ≤ a.count

-- `g` stands for `m`, the largest of the first entries
structure Replaced (first seen que : List Node) (m g : Node) (others out : List Node) : Prop where
  split : first.Perm (m :: others)
  largest : ∀ a ∈ others, a.count ≤ m.count
  kept : que.Perm (g :: others)
  arrived : seen.Perm (g :: out)
  larger : m.count < g.count
  rejected : ∀ d ∈ out, d.count ≤ g.count

def Full (first seen que : List Node) : Prop :=
  Heap.IsHeap less que ∧
    (Unchanged first seen que ∨ ∃ m g others out, Replaced first seen que m g others out)

theorem Full.top_le {top : Node} {rest : List Node} (h : Heap.IsHeap less (top :: rest)) :
    ∀ a ∈ top :: rest, a.count ≤ top.count := by
  intro a ha
  exact (less_eq_false_iff top a).mp (h.top less_strictWeak rfl a ha)

theorem perm_push_pop (top n : Node) (rest : List Node) :
    (Heap.push less (Heap.pop less (top :: rest)) n).Perm (n :: rest) :=
  (Heap.push_perm less _ n).trans ((Heap.pop_cons_perm less top rest).cons n)

theorem perm_concat_cons {seen l : List Node} (h : seen.Perm l) (n : Node) :
    (seen ++ [n]).Perm (n :: l) := (List.perm_append_singleton n seen).trans (h.cons n)

theorem Replaced.top_eq {first seen rest others out : List Node} {m g top : Node}
    (h : Replaced first seen (top :: rest) m g others out)
    (hheap : Heap.IsHeap less (top :: rest)) : top = g ∧ rest.Perm others := by
  have hg := Full.top_le hheap g (h.kept.mem_iff.mpr (List.mem_cons_self ..))
  have htop : top = g := by
    rcases List.mem_cons.mp (h.kept.mem_iff.mp (List.mem_cons_self ..)) with heq | hmem
    · exact heq
    · -- the others are not larger than `m`, so none of them is on top
      have hle := h.largest top hmem
      have hlt := h.larger
      omega
  have hkept := h.kept
  rw [htop] at hkept
  exact ⟨htop, hkept.cons_inv⟩

theorem Full.replace {first seen rest : List Node} {top n : Node}
    (h : Full first seen (top :: rest)) (hlt : top.count < n.count) :
    Full first (seen ++ [n]) (Heap.push less (Heap.pop less (top :: rest)) n) := by
  obtain ⟨hheap, hcases⟩ := h
  have hpop := Heap.pop_isHeap less_strictWeak _ hheap
  refine ⟨Heap.push_isHeap less_strictWeak _ n hpop, Or.inr ?_⟩
  have hkept := perm_push_pop top n rest
  have htop := Full.top_le hheap
  rcases hcases with ⟨hperm, hseen⟩ | ⟨m, g, others, out, hr⟩
  · have hrejected : ∀ d ∈ seen, d.count ≤ n.count := by
      intro d hd
      obtain ⟨a, ha, hda⟩ := hseen d hd
      have hat := htop a (hperm.mem_iff.mpr ha)
      omega
    exact ⟨top, n, rest, seen, hperm.symm, fun a ha => htop a (List.mem_cons_of_mem _ ha), hkept,
      perm_concat_cons (.refl _) n, hlt, hrejected⟩
  · obtain ⟨rfl, hrest⟩ := hr.top_eq hheap
    have hrejected : ∀ d ∈ top :: out, d.count ≤ n.count := by
      intro d hd
      rcases List.mem_cons.mp hd with rfl | hd
      · omega
      · have hdg := hr.rejected d hd
        omega
    have hlarger := hr.larger
    exact ⟨m, n, others, top :: out, hr.split, hr.largest, hkept.trans (hrest.cons n),
      perm_concat_cons hr.arrived n, by omega, hrejected⟩

theorem Full.reject {first seen rest : List Node} {top n : Node}
    (h : Full first seen (top :: rest)) (hle : n.count ≤ top.count) :
    Full first (seen ++ [n]) (top :: rest) := by
  obtain ⟨hheap, hcases⟩ := h
  refine ⟨hheap, ?_⟩
  rcases hcases with ⟨hperm, hseen⟩ | ⟨m, g, others, out, hr⟩
  · refine Or.inl ⟨hperm, ?_⟩
    intro d hd
    rcases List.mem_append.mp hd with hd | hd
    · exact hseen d hd
    · rw [List.mem_singleton.mp hd]
      exact ⟨top, hperm.mem_iff.mp (List.mem_cons_self ..), hle⟩
  · obtain ⟨rfl, -⟩ := hr.top_eq hheap
    have harrived : (seen ++ [n]).Perm (top :: n :: out) :=
      (perm_concat_cons hr.arrived n).trans (.swap _ _ _)
    have hrejected : ∀ d ∈ n :: out, d.count ≤ top.count := by
      intro d hd
      rcases List.mem_cons.mp hd with rfl | hd
      · exact hle
      · exact hr.rejected d hd
    exact Or.inr ⟨m, top, others, n :: out, hr.split, hr.largest, hr.kept, harrived, hr.larger,
      hrejected⟩

theorem Full.length_eq {first seen que : List Node} (h : Full first seen que) :
    que.length = first.length := by
  rcases h.2 with ⟨hperm, -⟩ | ⟨m, g, others, out, hr⟩
  · exact hperm.length_eq
  · rw [hr.kept.length_eq, hr.split.length_eq, List.length_cons, List.length_cons]

theorem Full.insertNode {maxLenth : ℕ} (hmax : 0 < maxLenth) {first seen que : List Node}
    (hfirst : first.length = maxLenth) (h : Full first seen que) (n : Node) :
    Full first (seen ++ [n]) (insertNode maxLenth que n) := by
  have hlen := h.length_eq
  cases que with
  | nil =>
    rw [List.length_nil] at hlen
    omega
  | cons top rest =>
    rw [Basic.insertNode, if_neg (by omega)]
    by_cases hlt : top.count < n.count
    · simp only [if_pos hlt]
      exact h.replace hlt
    · simp only [if_neg hlt]
      exact h.reject (by omega)

theorem foldl_insertNode_full {maxLenth : ℕ} (hmax : 0 < maxLenth) {first : List Node}
    (hfirst : first.length = maxLenth) (ns : List Node) {seen que : List Node}
    (h : Full first seen que) :
    Full first (seen ++ ns) (ns.foldl (Basic.insertNode maxLenth) que) := by
  induction ns generalizing seen que with
  | nil =>
    rw [List.append_nil]
    exact h
  | cons n ns ih =>
    have hnext := ih (h.insertNode hmax hfirst n)
    rwa [List.append_assoc, List.singleton_append] at hnext

/-! ### When the most frequent entries survive -/

/-- One entry is kept; or none of the later entries is more frequent than one of the
first; or the first entries have one count and only one later entry has a larger
one. -/
def NothingToChoose (maxLenth : ℕ) (es : List Node) : Prop :=
  maxLenth = 1 ∨
    (∀ d ∈ es.drop maxLenth, ∀ a ∈ es.take maxLenth, d.count ≤ a.count) ∨
    ∃ c, (∀ a ∈ es.take maxLenth, a.count = c) ∧
      (es.drop maxLenth).countP (fun d => c < d.count) ≤ 1

theorem mostFrequent_iff_of_perm {maxLenth : ℕ} {es que left : List Node}
    (hlen : que.length = min es.length maxLenth) (hperm : (que ++ left).Perm es) :
    MostFrequent maxLenth es que ↔ ∀ d ∈ left, ∀ a ∈ que, d.count ≤ a.count := by
  constructor
  · rintro ⟨-, out, hout, hle⟩ d hd
    have hsame : out.Perm left := (List.perm_append_left_iff que).mp (hout.trans hperm.symm)
    exact hle d (hsame.mem_iff.mpr hd)
  · intro hle
    exact ⟨hlen, left, hperm, hle⟩

section Choice

variable {maxLenth : ℕ} {first rest que : List Node}

theorem nothingToChoose_append (h : first.length = maxLenth) :
    NothingToChoose maxLenth (first ++ rest) ↔
      maxLenth = 1 ∨ (∀ d ∈ rest, ∀ a ∈ first, d.count ≤ a.count) ∨
        ∃ c, (∀ a ∈ first, a.count = c) ∧ rest.countP (fun d => c < d.count) ≤ 1 := by
  rw [NothingToChoose, List.take_left' h, List.drop_left' h]

theorem Unchanged.mostFrequent_iff (hfirst : first.length = maxLenth)
    (h : Unchanged first rest que) :
    MostFrequent maxLenth (first ++ rest) que ↔ NothingToChoose maxLenth (first ++ rest) := by
  obtain ⟨hperm, hrest⟩ := h
  have hlen : que.length = min (first ++ rest).length maxLenth := by
    rw [hperm.length_eq, List.length_append]
    omega
  rw [mostFrequent_iff_of_perm hlen (hperm.append_right rest), nothingToChoose_append hfirst]
  constructor
  · intro hle
    exact Or.inr (Or.inl fun d hd a ha => hle d hd a (hperm.mem_iff.mpr ha))
  · intro hcond d hd a ha
    have ha' := hperm.mem_iff.mp ha
    obtain ⟨b, hb, hdb⟩ := hrest d hd
    rcases hcond with hone | hle | ⟨c, hc, -⟩
    · -- the queue has room for one entry
      obtain ⟨x, rfl⟩ := List.length_eq_one_iff.mp (hfirst.trans hone)
      rw [List.mem_singleton.mp ha', ← List.mem_singleton.mp hb]
      exact hdb
    · exact hle d hd a ha'
    · rw [hc b hb] at hdb
      rw [hc a ha']
      exact hdb

section Replaced

variable {m g : Node} {others out : List Node}

theorem Replaced.countP_eq (h : Replaced first rest que m g others out) {c : ℕ}
    (hc : c < g.count) :
    rest.countP (fun d => c < d.count) = out.countP (fun d => c < d.count) + 1 := by
  rw [h.arrived.countP_eq, List.countP_cons_of_pos (by simpa using hc)]

theorem Replaced.perm_left (h : Replaced first rest que m g others out) :
    (que ++ m :: out).Perm (first ++ rest) := by
  have hswap : (g :: others ++ m :: out).Perm (m :: others ++ g :: out) :=
    List.perm_middle.trans (List.perm_middle.symm.cons m)
  exact (h.kept.append_right _).trans (hswap.trans (h.split.symm.append h.arrived.symm))

/-- If the entry given up is not missed, the others have its count, and what was
rejected is not larger. -/
theorem Replaced.one_count (h : Replaced first rest que m g others out) (hne : others ≠ [])
    (hle : ∀ d ∈ m :: out, ∀ a ∈ que, d.count ≤ a.count) :
    (∀ a ∈ first, a.count = m.count) ∧ rest.countP (fun d => m.count < d.count) ≤ 1 := by
  have hothers : ∀ d ∈ m :: out, ∀ a ∈ others, d.count ≤ a.count :=
    fun d hd a ha => hle d hd a (h.kept.mem_iff.mpr (List.mem_cons_of_mem g ha))
  constructor
  · intro a ha
    rcases List.mem_cons.mp (h.split.mem_iff.mp ha) with rfl | ha
    · rfl
    · exact le_antisymm (h.largest a ha) (hothers m (List.mem_cons_self ..) a ha)
  · obtain ⟨b, hb⟩ := List.exists_mem_of_ne_nil others hne
    have hnone : out.countP (fun d => m.count < d.count) = 0 := by
      rw [List.countP_eq_zero]
      intro d hd hlt
      have hdb := hothers d (List.mem_cons_of_mem m hd) b hb
      have hbm := h.largest b hb
      have hmd : m.count < d.count := by simpa using hlt
      omega
    rw [h.countP_eq h.larger, hnone]

theorem Replaced.le_of_one_count (h : Replaced first rest que m g others out) {c : ℕ}
    (hc : ∀ a ∈ first, a.count = c) (hone : rest.countP (fun d => c < d.count) ≤ 1) :
    ∀ d ∈ m :: out, d.count ≤ c := by
  have hm : m.count = c := hc m (h.split.mem_iff.mpr (List.mem_cons_self ..))
  have hlarger := h.larger
  intro d hd
  rcases List.mem_cons.mp hd with rfl | hd
  · omega
  · rw [h.countP_eq (by omega)] at hone
    have hnone : out.countP (fun d => c < d.count) = 0 := by omega
    simpa using List.countP_eq_zero.mp hnone d hd

theorem Replaced.le_top (h : Replaced first rest que m g others out) :
    ∀ d ∈ m :: out, d.count ≤ g.count := by
  have hlarger := h.larger
  intro d hd
  rcases List.mem_cons.mp hd with rfl | hd
  · omega
  · exact h.rejected d hd

theorem Replaced.mostFrequent_iff (hfirst : first.length = maxLenth)
    (h : Replaced first rest que m g others out) :
    MostFrequent maxLenth (first ++ rest) que ↔ NothingToChoose maxLenth (first ++ rest) := by
  have hsplit : others.length + 1 = maxLenth := h.split.length_eq.symm.trans hfirst
  have hlen : que.length = min (first ++ rest).length maxLenth := by
    rw [h.kept.length_eq, List.length_append, List.length_cons]
    omega
  rw [mostFrequent_iff_of_perm hlen h.perm_left, nothingToChoose_append hfirst]
  constructor
  · intro hle
    by_cases hnil : others = []
    · rw [hnil, List.length_nil] at hsplit
      exact Or.inl hsplit.symm
    · exact Or.inr (Or.inr ⟨m.count, h.one_count hnil hle⟩)
  · intro hcond d hd a ha
    rcases List.mem_cons.mp (h.kept.mem_iff.mp ha) with rfl | hother
    · exact h.le_top d hd
    · rcases hcond with hone | hle | ⟨c, hc, hone⟩
      · have hpos := List.length_pos_of_mem hother
        omega
      · -- the entry that replaced `m` is larger than it
        have hgm := hle g (h.arrived.mem_iff.mpr (List.mem_cons_self ..)) m
          (h.split.mem_iff.mpr (List.mem_cons_self ..))
        have hlarger := h.larger
        omega
      · rw [hc a (h.split.mem_iff.mpr (List.mem_cons_of_mem m hother))]
        exact h.le_of_one_count hc hone d hd

end Replaced

end Choice

theorem mostFrequent_of_room {maxLenth : ℕ} {es : List Node} (h : es.length ≤ maxLenth) :
    MostFrequent maxLenth es (es.foldl (insertNode maxLenth) []) := by
  have hperm := foldl_insertNode_room h
  refine ⟨by rw [hperm.length_eq]; omega, [], by rw [List.append_nil]; exact hperm, ?_⟩
  exact fun d hd => absurd hd List.not_mem_nil

theorem full_readDbs {maxLenth : ℕ} (hmax : 0 < maxLenth) {es : List Node}
    (h : maxLenth ≤ es.length) :
    Full (es.take maxLenth) (es.drop maxLenth) (es.foldl (insertNode maxLenth) []) := by
  have hfirst : (es.take maxLenth).length = maxLenth := List.length_take_of_le h
  have hstart : Full (es.take maxLenth) [] ((es.take maxLenth).foldl (insertNode maxLenth) []) :=
    ⟨foldl_insertNode_isHeap maxLenth _, Or.inl ⟨foldl_insertNode_room hfirst.le,
      fun d hd => absurd hd List.not_mem_nil⟩⟩
  have hfull := foldl_insertNode_full hmax hfirst (es.drop maxLenth) hstart
  rwa [List.nil_append, ← List.foldl_append, List.take_append_drop] at hfull

/-- `ReadDbs` keeps the most frequent entries of a database exactly when there is
nothing to choose. -/
theorem readDbs_mostFrequent_iff (maxLenth : ℕ) (hmax : 0 < maxLenth)
    (db : SortedMap Fp (List Byte)) :
    (∃ que, readDbs maxLenth db [] = some que ∧ MostFrequent maxLenth (dbNodes db) que) ↔
      NothingToChoose maxLenth (dbNodes db) := by
  simp only [readDbs_eq, Option.some.injEq, exists_eq_left']
  rcases Nat.le_total (dbNodes db).length maxLenth with hle | hge
  · have hdrop : (dbNodes db).drop maxLenth = [] := List.drop_eq_nil_of_le hle
    have hnothing : NothingToChoose maxLenth (dbNodes db) := by
      apply Or.inr (Or.inl _)
      rw [hdrop]
      exact fun d hd => absurd hd List.not_mem_nil
    exact ⟨fun _ => hnothing, fun _ => mostFrequent_of_room hle⟩
  · have hfirst : ((dbNodes db).take maxLenth).length = maxLenth := List.length_take_of_le hge
    have hfull := full_readDbs hmax hge
    nth_rewrite 1 3 [← List.take_append_drop maxLenth (dbNodes db)]
    rcases hfull.2 with hun | ⟨m, g, others, out, hr⟩
    · exact hun.mostFrequent_iff hfirst
    · exact hr.mostFrequent_iff hfirst

/-- The counts 5, 5, 7 and 5. -/
def fourChunks : SortedMap Fp (List Byte) :=
  SortedMap.empty.putAll [(.filled 1, leBytes 8 5), (.filled 2, leBytes 8 5),
    (.filled 3, leBytes 8 7), (.filled 4, leBytes 8 5)]

/-- The 7 replaces one of the first two. -/
theorem readDbs_mostFrequent_two :
    MostFrequent 2 (dbNodes fourChunks) [⟨.filled 3, 7⟩, ⟨.filled 2, 5⟩] := by
  have hnothing : NothingToChoose 2 (dbNodes fourChunks) :=
    Or.inr (Or.inr ⟨5, by decide +kernel, by decide +kernel⟩)
  obtain ⟨que, hread, hmost⟩ := (readDbs_mostFrequent_iff 2 Nat.two_pos _).mpr hnothing
  have hque : readDbs 2 fourChunks [] = some [⟨.filled 3, 7⟩, ⟨.filled 2, 5⟩] := by
    decide +kernel
  rw [hque] at hread
  rwa [← Option.some.inj hread] at hmost

def threeChunks : SortedMap Fp (List Byte) :=
  SortedMap.empty.putAll [(.filled 1, leBytes 8 5), (.filled 2, leBytes 8 1),
    (.filled 3, leBytes 8 3)]

def keptChunks : List Node := [⟨.filled 1, 5⟩, ⟨.filled 2, 1⟩]

/-- Of the counts 5, 1 and 3 a queue of two keeps 5 and 1. -/
theorem readDbs_loses_frequent :
    readDbs 2 threeChunks [] = some keptChunks ∧
      ¬ MostFrequent 2 (dbNodes threeChunks) keptChunks := by
  have hnodes : dbNodes threeChunks = keptChunks ++ [⟨.filled 3, 3⟩] := by
    decide +kernel
  have hperm : (keptChunks ++ [(⟨.filled 3, 3⟩ : Node)]).Perm (dbNodes threeChunks) :=
    .of_eq hnodes.symm
  have hlen : keptChunks.length = min (dbNodes threeChunks).length 2 := by
    rw [hnodes]
    rfl
  refine ⟨by decide +kernel, ?_⟩
  intro hmost
  exact absurd ((mostFrequent_iff_of_perm hlen hperm).mp hmost) (by decide)

end FreqAnalysis.Basic
