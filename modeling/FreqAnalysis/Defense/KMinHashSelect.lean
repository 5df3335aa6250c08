import FreqAnalysis.Base.TopK
import FreqAnalysis.Defense.KMinHash

/-!
# Which fingerprints k-MinHash keeps

`pq` is meant to hold the `K_MINHASH` least fingerprints of the open segment, the largest
of them on top. Its comparator returns the value of `memcmp` as a `bool`: true for any two
different keys. So a new entry climbs past all entries with other keys, and the top is
not the largest entry but the one pushed last. The first `K_MINHASH - 1` chunks of a
segment then stay in `pq` to its end, and the last place goes to the least of the others.
-/

namespace FreqAnalysis.Defense
open Base Locality

def leastKeys (k : ℕ) (seg : List Node) : List Fp := Heap.least k (seg.map Node.key)

/-- When `process_seg` is called for the segment, `pq` holds its `k` least fingerprints,
and the core is one of them. -/
def SelectsLeast (k : ℕ) (seg : List Node) : Prop :=
  ∀ (rand : ℕ → ℕ) (env : MinHashEnv),
    ((seg.foldl (keepLeastOf k) { env with pq := [] }).pq.map Node.key).Perm (leastKeys k seg) ∧
      ∃ core env', drawCoreOf k rand (seg.foldl (keepLeastOf k) { env with pq := [] })
        = some (core, env') ∧ core ∈ leastKeys k seg

theorem selectsLeast_iff_perm {k : ℕ} (hk : 0 < k) {seg : List Node} (h : k ≤ seg.length) :
    SelectsLeast k seg ↔ ((queued k seg).map Node.key).Perm (leastKeys k seg) := by
  have hfold : ∀ env : MinHashEnv, seg.foldl (keepLeastOf k) { env with pq := [] }
      = { env with pq := queued k seg } := fun env => foldl_keepLeastOf k seg _
  constructor
  · intro hsel
    obtain ⟨hperm, -⟩ := hsel (fun _ => 0) ⟨[], 0, SortedMap.empty, []⟩
    rw [hfold] at hperm
    exact hperm
  · intro hperm rand env
    rw [hfold]
    refine ⟨hperm, ?_⟩
    have hmod := Nat.mod_lt (rand env.drawn) hk
    rcases queued_cases hk rand env seg with ⟨hle, -⟩ | ⟨-, core, hcore, pq, hsome⟩
    · omega
    · exact ⟨core.key, _, hsome, hperm.mem_iff.mp (List.mem_map.mpr ⟨core, hcore, rfl⟩)⟩

/-! ### The entry on top -/

theorem keyCmp_of_ne {a b : Node} (h : a.key ≠ b.key) : keyCmp a b = true := by
  have hlen : b.key.val.length = a.key.val.length := by
    rw [a.key.property, b.key.property]
  rw [keyCmp, decide_eq_true_eq, Ne, memcmp_eq_zero_iff _ _ hlen]
  exact fun heq => h (Subtype.ext heq.symm)

theorem foldl_offerKey_room (k : ℕ) (seg : List Node) (h : seg.length ≤ k) :
    (seg.foldl (offerKey k) []).Perm seg :=
  Heap.foldl_room_perm keyCmp (fun _ e hroom => offerKey_room hroom e) seg [] (by simpa using h)

/-- A pushed entry reaches the top: past the root alone in a heap of three entries, past
entries with other keys in a larger one. -/
def Separate (k : ℕ) (firsts later : List Node) : Prop :=
  k ≤ 3 ∨ ∀ f ∈ firsts, ∀ e ∈ later, f.key ≠ e.key

theorem Separate.of_cons {k : ℕ} {firsts es : List Node} {e : Node}
    (h : Separate k firsts (e :: es)) : Separate k firsts [e] ∧ Separate k firsts es := by
  rcases h with hk | hne
  · exact ⟨Or.inl hk, Or.inl hk⟩
  · exact ⟨Or.inr fun f hf x hx => hne f hf x (List.mem_singleton.mp hx ▸ List.mem_cons_self ..),
      Or.inr fun f hf x hx => hne f hf x (List.mem_cons_of_mem e hx)⟩

-- `firsts` are the first `k - 1` chunks of the segment, `m` is the key of the other entry
def OnTop (firsts pq : List Node) (m : Fp) : Prop :=
  (pq.map Node.key).Perm (m :: firsts.map Node.key) ∧ pq.head?.map Node.key = some m

theorem push_head_key {k : ℕ} {firsts pq : List Node} (hlen : firsts.length + 1 = k)
    (hpq : (pq.map Node.key).Perm (firsts.map Node.key)) {e : Node}
    (h : Separate k firsts [e]) : (Heap.push keyCmp pq e).head?.map Node.key = some e.key := by
  rcases h with hk | hne
  · cases pq with
    | nil => rfl
    | cons a rest =>
      have hsmall := hpq.length_eq
      rw [List.length_map, List.length_map] at hsmall
      rw [Heap.push_head_small (by omega), Option.map_some]
      split_ifs with hcmp
      · rfl
      · -- the entry stays below the root only when it has the root's key
        exact congrArg some (not_not.mp fun hne => hcmp (keyCmp_of_ne hne))
  · rw [Heap.push_head, Option.map_some]
    intro a ha
    obtain ⟨f, hf, hkey⟩ := List.mem_map.mp (hpq.mem_iff.mp (List.mem_map.mpr ⟨a, ha, rfl⟩))
    apply keyCmp_of_ne
    rw [← hkey]
    exact hne f hf e (List.mem_singleton_self e)

theorem onTop_push {k : ℕ} {firsts pq : List Node} (hlen : firsts.length + 1 = k)
    (hpq : (pq.map Node.key).Perm (firsts.map Node.key)) {e : Node}
    (h : Separate k firsts [e]) : OnTop firsts (Heap.push keyCmp pq e) e.key :=
  ⟨((Heap.push_perm keyCmp pq e).map Node.key).trans (hpq.cons e.key), push_head_key hlen hpq h⟩

theorem OnTop.offerKey {k : ℕ} {firsts pq : List Node} {m : Fp} (hm : OnTop firsts pq m)
    (hlen : firsts.length + 1 = k) {e : Node} (h : Separate k firsts [e]) :
    OnTop firsts (offerKey k pq e) (min m e.key) := by
  obtain ⟨hperm, hhead⟩ := hm
  cases pq with
  | nil => cases hhead
  | cons top rest =>
    obtain rfl : top.key = m := Option.some.inj hhead
    have hfull := hperm.length_eq
    rw [List.length_map, List.length_cons, List.length_cons, List.length_map] at hfull
    rw [offerKey_full (by rw [List.length_cons]; omega)]
    have hrest : (rest.map Node.key).Perm (firsts.map Node.key) := hperm.cons_inv
    split_ifs with hlt
    · rw [min_eq_right hlt.le]
      exact onTop_push hlen (((Heap.pop_cons_perm keyCmp top rest).map Node.key).trans hrest) h
    · rw [min_eq_left (not_lt.mp hlt)]
      exact ⟨hperm, rfl⟩

theorem OnTop.foldl {k : ℕ} {firsts : List Node} (hlen : firsts.length + 1 = k)
    (es : List Node) {pq : List Node} {m : Fp} (hm : OnTop firsts pq m)
    (h : Separate k firsts es) :
    OnTop firsts (es.foldl (Defense.offerKey k) pq) (es.foldl (fun key x => min key x.key) m) := by
  induction es generalizing pq m with
  | nil => exact hm
  | cons e es ih => exact ih (hm.offerKey hlen h.of_cons.1) h.of_cons.2

/-- The first `k - 1` chunks stay, and the least of the later ones joins them. -/
theorem queued_perm {k : ℕ} {firsts later : List Node}
    (hlen : firsts.length + 1 = k) (hne : later ≠ []) (h : Separate k firsts later) :
    ((queued k (firsts ++ later)).map Node.key).Perm (minKey later :: firsts.map Node.key) := by
  obtain ⟨e, es, rfl⟩ := List.exists_cons_of_ne_nil hne
  have hroom := foldl_offerKey_room k firsts (by omega)
  have htop := onTop_push hlen (hroom.map Node.key) h.of_cons.1
  have hlt : (firsts.foldl (offerKey k) []).length < k := by
    rw [hroom.length_eq]
    omega
  have hall := htop.foldl hlen es h.of_cons.2
  rw [queued, List.foldl_append, List.foldl_cons, offerKey_room hlt]
  exact hall.1

/-! ### When these are the least -/

theorem countP_le_one_iff {α : Type} [LinearOrder α] {least x : α} {others : List α}
    (hleast : ∀ d ∈ others, least ≤ d) {p : α → Bool} (hp : ∀ d, p d = true ↔ d < x) :
    (least :: others).countP p ≤ 1 ↔ ∀ d ∈ others, x ≤ d := by
  constructor
  · intro hone d hd
    by_contra hlt
    have hdx : d < x := not_le.mp hlt
    have hfirst : p least = true := (hp least).mpr (lt_of_le_of_lt (hleast d hd) hdx)
    have hpos : 0 < others.countP p := List.countP_pos_iff.mpr ⟨d, hd, (hp d).mpr hdx⟩
    rw [List.countP_cons_of_pos hfirst] at hone
    omega
  · intro hle
    have hnone : others.countP p = 0 := by
      rw [List.countP_eq_zero]
      intro d hd hdx
      exact absurd (hle d hd) (not_le.mpr ((hp d).mp hdx))
    rw [List.countP_cons, hnone]
    split_ifs
    · exact le_rfl
    · exact Nat.zero_le 1

theorem countP_key_le_one_iff {later : List Node} {m : Fp}
    (hm : IsLeast {x | x ∈ later.map Node.key} m) (x : Fp) :
    later.countP (fun e => e.key < x) ≤ 1 ↔ ∀ d ∈ (later.map Node.key).erase m, x ≤ d := by
  have hlater : (later.map Node.key).Perm (m :: (later.map Node.key).erase m) :=
    List.perm_cons_erase hm.1
  have hothers : ∀ d ∈ (later.map Node.key).erase m, m ≤ d :=
    fun d hd => hm.2 (List.mem_of_mem_erase hd)
  rw [← countP_le_one_iff hothers (p := fun d => d < x) (fun d => by simp),
    ← hlater.countP_eq, List.countP_map]
  rfl

theorem selectsLeast_append_iff {k : ℕ} {firsts later : List Node}
    (hlen : firsts.length + 1 = k) (hne : later ≠ []) (h : Separate k firsts later) :
    SelectsLeast k (firsts ++ later) ↔
      ∀ f ∈ firsts, later.countP (fun e => e.key < f.key) ≤ 1 := by
  have hqueued := queued_perm hlen hne h
  have hm := minKey_isLeast hne
  generalize minKey later = m at hqueued hm
  have hpos : 0 < later.length := List.length_pos_of_ne_nil hne
  -- what is kept, followed by the later keys that are left out
  have hall : ((m :: firsts.map Node.key) ++ (later.map Node.key).erase m).Perm
      ((firsts ++ later).map Node.key) := by
    rw [List.map_append]
    exact List.perm_middle.symm.trans ((List.perm_cons_erase hm.1).symm.append_left _)
  have hk : (m :: firsts.map Node.key).length = k := by
    rw [List.length_cons, List.length_map, hlen]
  have hiff := Heap.perm_least_iff hall
  rw [hk] at hiff
  rw [selectsLeast_iff_perm (by omega) (by rw [List.length_append]; omega),
    hqueued.congr_left, leastKeys, hiff]
  simp only [countP_key_le_one_iff hm]
  constructor
  · intro hle f hf
    exact hle f.key (List.mem_cons_of_mem m (List.mem_map.mpr ⟨f, hf, rfl⟩))
  · intro hle a ha
    rcases List.mem_cons.mp ha with rfl | ha
    · exact fun d hd => hm.2 (List.mem_of_mem_erase hd)
    · obtain ⟨f, hf, rfl⟩ := List.mem_map.mp ha
      exact hle f hf

theorem selectsLeast_iff {k : ℕ} (hk : 0 < k) {seg : List Node} (hlen : k ≤ seg.length)
    (h : Separate k (seg.take (k - 1)) (seg.drop (k - 1))) :
    SelectsLeast k seg ↔
      ∀ f ∈ seg.take (k - 1), (seg.drop (k - 1)).countP (fun e => e.key < f.key) ≤ 1 := by
  have hfirsts : (seg.take (k - 1)).length + 1 = k := by
    rw [List.length_take]
    omega
  have hlater : seg.drop (k - 1) ≠ [] := by
    intro hnil
    have hle := List.drop_eq_nil_iff.mp hnil
    omega
  have hiff := selectsLeast_append_iff hfirsts hlater h
  rwa [List.take_append_drop] at hiff

/-! ### Every number of fingerprints -/

theorem segs_of_total_zero {cur l : List Node} (hcur : total cur = 0) (hl : ∀ e ∈ l, e.size = 0) :
    Cut.segs segRule cur l = [cur ++ l] := by
  induction l generalizing cur with
  | nil => rw [Cut.segs_nil, List.append_nil]
  | cons e l ih =>
    have he := hl e (List.mem_cons_self ..)
    have hrule : segRule cur e = none := by
      have hmin : ¬ (segMin ≤ 0 ∧ atBoundary e.key = true) := fun h => absurd h.1 (by decide)
      rw [segRule_eq (by omega), hcur, he, if_neg (by decide), if_neg hmin]
    rw [Cut.segs_cons_none hrule, ih (by rw [total_concat]; omega)
      (fun x hx => hl x (List.mem_cons_of_mem e hx)), List.append_assoc]
    rfl

def emptyChunk (b : Byte) : Node := ⟨.filled b, 0⟩

-- chunks whose fingerprint is kept and two smaller ones that belong in its place
def crowded (k : ℕ) : List Node :=
  List.replicate (k - 1) (emptyChunk 2) ++ List.replicate 2 (emptyChunk 1)

theorem segments_crowded (k : ℕ) : segments (crowded k) = [crowded k] := by
  apply segs_of_total_zero rfl
  intro e he
  rcases List.mem_append.mp he with he | he
  · rw [List.eq_of_mem_replicate he]
    rfl
  · rw [List.eq_of_mem_replicate he]
    rfl

theorem not_selectsLeast_crowded {k : ℕ} (h : 2 ≤ k) :
    k ≤ (crowded k).length ∧ ¬ SelectsLeast k (crowded k) := by
  have hlen : (List.replicate (k - 1) (emptyChunk 2)).length + 1 = k := by
    rw [List.length_replicate]
    omega
  have hnew : Separate k (List.replicate (k - 1) (emptyChunk 2))
      (List.replicate 2 (emptyChunk 1)) := by
    apply Or.inr
    intro f hf e he
    rw [List.eq_of_mem_replicate hf, List.eq_of_mem_replicate he]
    decide
  constructor
  · rw [crowded, List.length_append, List.length_replicate, List.length_replicate]
    omega
  · rw [crowded, selectsLeast_append_iff hlen (by decide) hnew]
    intro hone
    have htwo := hone (emptyChunk 2) (List.mem_replicate.mpr ⟨by omega, rfl⟩)
    exact absurd htwo (by decide)

/-- Only `K_MINHASH` equal to 1 selects the least fingerprint of every segment. For a
larger number, each of the first fingerprints may be larger than at most one of the later
ones: in every segment when `K_MINHASH` is 2 or 3, else in those where no fingerprint of
the first chunks occurs again. -/
theorem kminhash_selects_least_iff (k : ℕ) (hk : 0 < k) :
    ((∀ trace, ∀ seg ∈ segments trace, k ≤ seg.length → SelectsLeast k seg) ↔ k = 1) ∧
      ∀ seg : List Node, k ≤ seg.length → Separate k (seg.take (k - 1)) (seg.drop (k - 1)) →
        (SelectsLeast k seg ↔
          ∀ f ∈ seg.take (k - 1), (seg.drop (k - 1)).countP (fun e => e.key < f.key) ≤ 1) := by
  refine ⟨⟨?_, ?_⟩, fun seg hlen hsep => selectsLeast_iff hk hlen hsep⟩
  · intro hall
    by_contra hne
    obtain ⟨hlen, hnot⟩ := not_selectsLeast_crowded (k := k) (by omega)
    have hmem : crowded k ∈ segments (crowded k) := by
      rw [segments_crowded]
      exact List.mem_singleton_self _
    exact hnot (hall (crowded k) (crowded k) hmem hlen)
  · rintro rfl trace seg - hlen
    apply (selectsLeast_iff hk hlen (Or.inl (by decide))).mpr
    exact fun f hf => absurd hf List.not_mem_nil

/-- The third fingerprint takes the place of the second and the fourth that of the third. -/
theorem kminhash_selects_least_two :
    SelectsLeast 2
      [⟨.filled 2, 8192⟩, ⟨.filled 4, 8192⟩, ⟨.filled 3, 8192⟩, ⟨.filled 1, 8192⟩] :=
  ((kminhash_selects_least_iff 2 Nat.two_pos).2 _ (by decide) (Or.inl (by decide))).mpr (by decide)

def threeNodes : List Node := [⟨.filled 3, 8192⟩, ⟨.filled 1, 8192⟩, ⟨.filled 2, 8192⟩]

/-- The largest of three fingerprints is kept in place of the second, and with a draw of
1 it is the core. -/
theorem kminhash_keeps_largest :
    segments threeNodes = [threeNodes] ∧ leastKeys 2 threeNodes = [.filled 1, .filled 2] ∧
      (queued 2 threeNodes).map Node.key = [.filled 1, .filled 3] ∧
      (drawCoreOf 2 (fun _ => 1) ⟨queued 2 threeNodes, 0, SortedMap.empty, []⟩).map Prod.fst
        = some (.filled 3) ∧
      ¬ SelectsLeast 2 threeNodes := by
  have hleast : leastKeys 2 threeNodes = [.filled 1, .filled 2] := by decide +kernel
  have hqueued : (queued 2 threeNodes).map Node.key = [.filled 1, .filled 3] := by decide +kernel
  refine ⟨by decide +kernel, hleast, hqueued, by decide +kernel, ?_⟩
  rw [selectsLeast_iff_perm Nat.two_pos (by decide), hleast, hqueued]
  intro hperm
  have hmem : Fp.filled 3 ∈ [Fp.filled 1, Fp.filled 2] := hperm.mem_iff.mp (by decide)
  exact absurd hmem (by decide)

end FreqAnalysis.Defense
