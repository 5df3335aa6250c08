import FreqAnalysis.Ddfs.LruCache
import Mathlib.Data.List.Perm.Subperm

/-!
# The cache is a list of keys

The linked structure of `lrucache.cc` refines a plain list of keys, most recent
first. The representation invariant says that the list nodes are linked in that
order and that the chain of a bucket holds exactly the nodes of that bucket,
oldest first. The age order of the chains is what makes `delete_hash`, which
searches by key, remove the hash node of the list node being deleted, also when
other keys of the bucket compare equal.
-/

namespace FreqAnalysis.Ddfs
open Base Base.Store

/-! ### The abstract cache -/

/-- The cache takes `k` for `str`: same bucket, and equal for `strncmp`. -/
def keyMatch (str k : Fp) : Bool := strHash k = strHash str && sameCStr k str

def eraseOldest (str : Fp) : List Fp → Option (List Fp)
  | [] => none
  | k :: ks =>
    match eraseOldest str ks with
    | some ks' => some (k :: ks')
    | none => if keyMatch str k then some ks else none

def lruFind (ks : List Fp) (str : Fp) : Bool × List Fp :=
  match eraseOldest str ks with
  | some ks' => (true, str :: ks')
  | none => (false, ks)

def lruPush (m : ℤ) (ks : List Fp) (str : Fp) : List Fp :=
  if (ks.length : ℤ) < m then str :: ks else (str :: ks).dropLast

def lruPut (m : ℤ) (ks : List Fp) (str : Fp) : Bool × List Fp :=
  match lruFind ks str with
  | (true, ks') => (false, ks')
  | (false, _) => (true, lruPush m ks str)

theorem eraseOldest_eq_none_iff (str : Fp) (ks : List Fp) :
    eraseOldest str ks = none ↔ ∀ k ∈ ks, keyMatch str k = false := by
  induction ks with
  | nil => simp [eraseOldest]
  | cons k ks ih =>
    simp only [eraseOldest, List.forall_mem_cons, ← ih]
    cases h : eraseOldest str ks with
    | some ks' => simp
    | none => simp

theorem eraseOldest_split (str : Fp) (ks ks' : List Fp) (h : eraseOldest str ks = some ks') :
    ∃ k1 k k2, ks = k1 ++ k :: k2 ∧ keyMatch str k = true ∧
      (∀ x ∈ k2, keyMatch str x = false) ∧ ks' = k1 ++ k2 := by
  induction ks generalizing ks' with
  | nil => simp [eraseOldest] at h
  | cons k ks ih =>
    simp only [eraseOldest] at h
    cases hrec : eraseOldest str ks with
    | some t =>
      obtain ⟨k1, x, k2, rfl, hx, h2, rfl⟩ := ih t hrec
      simp only [hrec, Option.some.injEq] at h
      exact ⟨k :: k1, x, k2, rfl, hx, h2, h.symm⟩
    | none =>
      simp only [hrec] at h
      split_ifs at h with hk
      have hks : ks = ks' := by simpa using h
      exact ⟨[], k, ks, rfl, hk, (eraseOldest_eq_none_iff str ks).mp hrec, hks.symm⟩

theorem lruFind_hit (ks : List Fp) (str : Fp) (h : (lruFind ks str).1 = true) :
    ∃ k ∈ ks, cStr k.val = cStr str.val := by
  cases herase : eraseOldest str ks with
  | none => simp [lruFind, herase] at h
  | some ks' =>
    obtain ⟨k1, k, k2, rfl, hk, -, -⟩ := eraseOldest_split str ks ks' herase
    simp only [keyMatch, Bool.and_eq_true, sameCStr_iff] at hk
    exact ⟨k, by simp, hk.2⟩

theorem mem_lruFind (ks : List Fp) (str x : Fp) (hx : x ∈ (lruFind ks str).2) :
    x ∈ ks ∨ x = str ∧ (lruFind ks str).1 = true := by
  cases herase : eraseOldest str ks with
  | none =>
    simp only [lruFind, herase] at hx
    exact Or.inl hx
  | some ks' =>
    obtain ⟨k1, k, k2, rfl, -, -, rfl⟩ := eraseOldest_split str ks ks' herase
    simp only [lruFind, herase, List.mem_cons, List.mem_append] at hx ⊢
    tauto

theorem mem_lruPut (m : ℤ) (ks : List Fp) (str x : Fp) (hx : x ∈ (lruPut m ks str).2) :
    x ∈ ks ∨ x = str := by
  have hfind := mem_lruFind ks str x
  unfold lruPut at hx
  split at hx
  · rename_i ks' hres
    rw [hres] at hfind
    exact (hfind hx).imp_right And.left
  · have hcons : x ∈ str :: ks := by
      unfold lruPush at hx
      split_ifs at hx
      · exact hx
      · exact List.dropLast_subset _ hx
    exact (List.mem_cons.mp hcons).symm

/-! ### The representation invariant -/

structure ListRep (c : LruCache) (l : List (ℕ × Fp)) : Prop where
  seg : c.listNodes.Seg none l none
  head : c.head = headAddr l none
  back : c.back = lastAddr none l
  nodup : (addrs l).Nodup
  below : ∀ a ∈ addrs l, a < c.brk
  live : ∀ a, c.listNodes a ≠ none → a ∈ addrs l

def bucketAddrs (b : ℕ) (l : List (ℕ × Fp)) : List ℕ :=
  addrs (l.filter (fun e => strHash e.2 = b)).reverse

/-- The hash chains `ch`: the chain of a bucket points at the nodes of the
bucket, oldest first. -/
structure HashRep (c : LruCache) (l : List (ℕ × Fp)) (ch : ℕ → List (ℕ × ℕ)) : Prop where
  seg : ∀ b, c.hashNodes.Seg none (ch b) none
  table : ∀ b, c.hashTable b = headAddr (ch b) none
  nodup : ∀ b, (addrs (ch b)).Nodup
  disjoint : ∀ b b' a, a ∈ addrs (ch b) → a ∈ addrs (ch b') → b = b'
  below : ∀ b, ∀ a ∈ addrs (ch b), a < c.brk
  pos : ∀ b, (ch b).map Prod.snd = bucketAddrs b l
  live : ∀ a, c.hashNodes a ≠ none → ∃ b, a ∈ addrs (ch b)

structure Rep (c : LruCache) (l : List (ℕ × Fp)) (ch : ℕ → List (ℕ × ℕ)) : Prop where
  list : ListRep c l
  hash : HashRep c l ch
  now : c.nowCacheSize = l.length
  max : (l.length : ℤ) ≤ c.maxCacheSize

theorem bucketAddrs_cons (b p : ℕ) (k : Fp) (l : List (ℕ × Fp)) :
    bucketAddrs b ((p, k) :: l)
      = if strHash k = b then bucketAddrs b l ++ [p] else bucketAddrs b l := by
  split_ifs with h <;> simp [bucketAddrs, addrs, h]

theorem bucketAddrs_append (b : ℕ) (l1 l2 : List (ℕ × Fp)) :
    bucketAddrs b (l1 ++ l2) = bucketAddrs b l2 ++ bucketAddrs b l1 := by
  simp [bucketAddrs, addrs]

theorem mem_bucketAddrs (b p : ℕ) (l : List (ℕ × Fp)) :
    p ∈ bucketAddrs b l ↔ ∃ k, (p, k) ∈ l ∧ strHash k = b := by
  simp [bucketAddrs, addrs]

theorem length_le_of_nodup (l : List ℕ) (n : ℕ) (h : l.Nodup) (hlt : ∀ a ∈ l, a < n) :
    l.length ≤ n := by
  have hsub : l ⊆ List.range n := fun a ha => List.mem_range.mpr (hlt a ha)
  simpa using (h.subperm hsub).length_le

theorem ListRep.frame {c c' : LruCache} {l : List (ℕ × Fp)} (h : ListRep c l)
    (hnodes : c'.listNodes = c.listNodes) (hhead : c'.head = c.head) (hback : c'.back = c.back)
    (hbrk : c.brk ≤ c'.brk) : ListRep c' l := by
  refine ⟨?_, hhead.trans h.head, hback.trans h.back, h.nodup, ?_, ?_⟩
  · rw [hnodes]
    exact h.seg
  · intro a ha
    exact (h.below a ha).trans_le hbrk
  · rw [hnodes]
    exact h.live

theorem HashRep.frame {c c' : LruCache} {l : List (ℕ × Fp)} {ch : ℕ → List (ℕ × ℕ)}
    (h : HashRep c l ch) (hnodes : c'.hashNodes = c.hashNodes)
    (htable : c'.hashTable = c.hashTable) (hbrk : c.brk ≤ c'.brk) : HashRep c' l ch := by
  refine ⟨?_, ?_, h.nodup, h.disjoint, ?_, h.pos, ?_⟩
  · rw [hnodes]
    exact h.seg
  · rw [htable]
    exact h.table
  · intro b a ha
    exact (h.below b a ha).trans_le hbrk
  · rw [hnodes]
    exact h.live

theorem ListRep.length_le {c : LruCache} {l : List (ℕ × Fp)} (h : ListRep c l) :
    l.length ≤ c.brk := by
  have := length_le_of_nodup (addrs l) c.brk h.nodup h.below
  simpa [addrs] using this

theorem HashRep.length_le {c : LruCache} {l : List (ℕ × Fp)} {ch : ℕ → List (ℕ × ℕ)}
    (h : HashRep c l ch) (b : ℕ) : (ch b).length ≤ c.brk := by
  have := length_le_of_nodup (addrs (ch b)) c.brk (h.nodup b) (h.below b)
  simpa [addrs] using this

def HasKeys (c : LruCache) (l : List (ℕ × Fp)) : Prop :=
  ∀ e ∈ l, ∃ nx fr, c.listNodes e.1 = some ⟨e.2, nx, fr⟩

theorem ListRep.hasKeys {c : LruCache} {l : List (ℕ × Fp)} (h : ListRep c l) : HasKeys c l :=
  fun _ he => h.seg.data_at he

theorem HasKeys.keyMatches {c : LruCache} {l : List (ℕ × Fp)} (h : HasKeys c l) (str : Fp)
    {p : ℕ} {k : Fp} (hm : (p, k) ∈ l) : c.keyMatches str p = some (sameCStr k str) := by
  obtain ⟨nx, fr, hat⟩ := h (p, k) hm
  simp [LruCache.keyMatches, hat]

/-! ### Searching a chain -/

section Chain

variable {c : LruCache} {l : List (ℕ × Fp)} {ch : ℕ → List (ℕ × ℕ)}

theorem findFrom_chain (hh : HashRep c l ch) (hk : HasKeys c l) (str : Fp) :
    c.hashNodes.findFrom (c.keyMatches str) c.brk (c.hashTable (strHash str))
      = some (((ch (strHash str)).find?
          (fun e => (c.keyMatches str e.2).getD false)).map Prod.fst) := by
  rw [hh.table]
  refine findFrom_spec _ _ (fun p => (c.keyMatches str p).getD false) none _ (hh.seg _) ?_ _
    (hh.length_le _)
  intro e he
  have hmem : e.2 ∈ bucketAddrs (strHash str) l := by
    rw [← hh.pos]
    exact List.mem_map.mpr ⟨e, he, rfl⟩
  obtain ⟨k, hkl, _⟩ := (mem_bucketAddrs _ _ _).mp hmem
  simp [hk.keyMatches str hkl]

theorem findFrom_chain_none (hh : HashRep c l ch) (hk : HasKeys c l) (str : Fp)
    (hno : ∀ e ∈ l, keyMatch str e.2 = false) :
    c.hashNodes.findFrom (c.keyMatches str) c.brk (c.hashTable (strHash str)) = some none := by
  rw [findFrom_chain hh hk str, List.find?_eq_none.mpr]
  · rfl
  · intro e he
    have hmem : e.2 ∈ bucketAddrs (strHash str) l := by
      rw [← hh.pos]
      exact List.mem_map.mpr ⟨e, he, rfl⟩
    obtain ⟨k, hkl, hb⟩ := (mem_bucketAddrs _ _ _).mp hmem
    have hnot := hno (e.2, k) hkl
    simp only [keyMatch, hb, decide_true, Bool.true_and] at hnot
    simp [hk.keyMatches str hkl, hnot]

theorem findFrom_chain_some {l1 l2 : List (ℕ × Fp)} {t : ℕ} {k : Fp}
    (hh : HashRep c (l1 ++ (t, k) :: l2) ch) (hk : HasKeys c (l1 ++ (t, k) :: l2)) (str : Fp)
    (hmatch : keyMatch str k = true) (hold : ∀ e ∈ l2, keyMatch str e.2 = false) :
    ∃ a h1 h2, ch (strHash str) = h1 ++ (a, t) :: h2 ∧
      h1.map Prod.snd = bucketAddrs (strHash str) l2 ∧
      h2.map Prod.snd = bucketAddrs (strHash str) l1 ∧
      c.hashNodes.findFrom (c.keyMatches str) c.brk (c.hashTable (strHash str)) = some (some a) := by
  have hb : strHash k = strHash str := by
    simp only [keyMatch, Bool.and_eq_true, decide_eq_true_eq] at hmatch
    exact hmatch.1
  have hc : sameCStr k str = true := by
    simp only [keyMatch, Bool.and_eq_true] at hmatch
    exact hmatch.2
  have hpos := hh.pos (strHash str)
  rw [bucketAddrs_append, bucketAddrs_cons, if_pos hb, List.append_assoc,
    List.singleton_append] at hpos
  obtain ⟨h1, h', hch, hm1, hm'⟩ := List.map_eq_append_iff.mp hpos
  obtain ⟨⟨a, p⟩, h2, rfl, hp, hm2⟩ := List.map_eq_cons_iff.mp hm'
  simp only at hp
  subst hp
  refine ⟨a, h1, h2, hch, hm1, hm2, ?_⟩
  rw [findFrom_chain hh hk str, hch, List.find?_append, List.find?_eq_none.mpr]
  · have hat := hk.keyMatches str (p := p) (k := k) (by simp)
    simp [hat, hc]
  · intro e he
    have hmem : e.2 ∈ bucketAddrs (strHash str) l2 := by
      rw [← hm1]
      exact List.mem_map.mpr ⟨e, he, rfl⟩
    obtain ⟨x, hxl, hxb⟩ := (mem_bucketAddrs _ _ _).mp hmem
    have hnot := hold (e.2, x) hxl
    simp only [keyMatch, hxb, decide_true, Bool.true_and] at hnot
    have hxl' : (e.2, x) ∈ l1 ++ (p, k) :: l2 := by simp [hxl]
    simp [hk.keyMatches str hxl', hnot]

end Chain

/-! ### What the operations do -/

/-- Replacing the chain of one bucket: the new chain may use the addresses the
old one had and fresh ones, and the nodes of all other chains are untouched. -/
theorem HashRep.updateBucket {c : LruCache} {l l' : List (ℕ × Fp)} {ch : ℕ → List (ℕ × ℕ)}
    (hh : HashRep c l ch) (pos brk : ℕ) (chain : List (ℕ × ℕ)) (nodes : Store ℕ)
    (hbrk : c.brk ≤ brk) (hseg : nodes.Seg none chain none) (hnd : (addrs chain).Nodup)
    (hown : ∀ a ∈ addrs chain, a ∈ addrs (ch pos) ∨ (c.brk ≤ a ∧ a < brk))
    (hframe : ∀ b, b ≠ pos → ∀ a ∈ addrs (ch b), nodes a = c.hashNodes a)
    (hpos : chain.map Prod.snd = bucketAddrs pos l')
    (hpos' : ∀ b, b ≠ pos → bucketAddrs b l' = bucketAddrs b l)
    (hlive : ∀ a, nodes a ≠ none → a ∈ addrs chain ∨ ∃ b, b ≠ pos ∧ a ∈ addrs (ch b)) :
    HashRep { c with
        hashNodes := nodes
        hashTable := Function.update c.hashTable pos (headAddr chain none)
        brk := brk } l' (Function.update ch pos chain) := by
  have hmem : ∀ b a, a ∈ addrs (Function.update ch pos chain b) →
      a ∈ addrs (ch b) ∨ (b = pos ∧ c.brk ≤ a ∧ a < brk) := by
    intro b a ha
    by_cases hb : b = pos
    · subst hb
      rw [Function.update_self] at ha
      exact (hown a ha).imp_right fun h => ⟨rfl, h⟩
    · rw [Function.update_of_ne hb] at ha
      exact Or.inl ha
  constructor
  · intro b
    by_cases hb : b = pos
    · subst hb
      simpa using hseg
    · simpa [Function.update_of_ne hb] using (hh.seg b).congr (hframe b hb)
  · intro b
    by_cases hb : b = pos
    · subst hb
      simp
    · simpa [Function.update_of_ne hb] using hh.table b
  · intro b
    by_cases hb : b = pos
    · subst hb
      simpa using hnd
    · simpa [Function.update_of_ne hb] using hh.nodup b
  · intro b b' a ha ha'
    rcases hmem b a ha with h | ⟨hb, hlo, _⟩
    · rcases hmem b' a ha' with h' | ⟨_, hlo', _⟩
      · exact hh.disjoint b b' a h h'
      · have := hh.below b a h
        omega
    · rcases hmem b' a ha' with h' | ⟨hb', _, _⟩
      · have := hh.below b' a h'
        omega
      · exact hb.trans hb'.symm
  · intro b a ha
    rcases hmem b a ha with h | ⟨_, _, h⟩
    · exact lt_of_lt_of_le (hh.below b a h) hbrk
    · exact h
  · intro b
    by_cases hb : b = pos
    · subst hb
      simpa using hpos
    · rw [Function.update_of_ne hb, hh.pos, hpos' b hb]
  · intro a ha
    rcases hlive a ha with hchain | ⟨b, hb, hmem⟩
    · exact ⟨pos, by rwa [Function.update_self]⟩
    · exact ⟨b, by rwa [Function.update_of_ne hb]⟩

theorem insertHash_spec (c : LruCache) (l : List (ℕ × Fp)) (ch : ℕ → List (ℕ × ℕ)) (k : Fp) (p : ℕ)
    (hh : HashRep c l ch) :
    ∃ nodes table ch', c.insertHash k p
        = some { c with hashNodes := nodes, hashTable := table, brk := c.brk + 1 } ∧
      HashRep { c with hashNodes := nodes, hashTable := table, brk := c.brk + 1 }
        ((p, k) :: l) ch' := by
  have hnew : ∀ b, c.brk ∉ addrs (ch b) := fun b hb => Nat.lt_irrefl _ (hh.below b _ hb)
  obtain ⟨nodes, hpush, hseg, hframe⟩ := pushBack_spec c.hashNodes (ch (strHash k)) c.brk p c.brk
    (hh.seg _) (hh.nodup _) (hnew _) (hh.length_le _)
  have hnd : (addrs (ch (strHash k) ++ [(c.brk, p)])).Nodup := by
    have := (hh.nodup (strHash k)).concat (hnew _)
    simpa [addrs] using this
  refine ⟨_, _, _, ?_, hh.updateBucket (strHash k) (c.brk + 1) _ nodes (Nat.le_succ _) hseg hnd
    ?_ ?_ ?_ ?_ ?_⟩
  · simp only [LruCache.insertHash, hh.table, hpush, Option.bind_eq_bind, Option.bind_some]
  · intro a ha
    have : a ∈ addrs (ch (strHash k)) ∨ a = c.brk := by simpa [addrs] using ha
    exact this.imp_right fun h => by omega
  · intro b hb a ha
    exact hframe a (fun ha' => hb (hh.disjoint b _ a ha ha')) (fun h0 => hnew b (h0 ▸ ha))
  · rw [bucketAddrs_cons, if_pos rfl, ← hh.pos]
    simp
  · intro b hb
    rw [bucketAddrs_cons, if_neg (Ne.symm hb)]
  · intro a ha
    have hchain : addrs (ch (strHash k) ++ [(c.brk, p)]) = addrs (ch (strHash k)) ++ [c.brk] := by
      simp [addrs]
    rw [hchain, List.mem_append, List.mem_singleton]
    by_cases hmem : a ∈ addrs (ch (strHash k)) ∨ a = c.brk
    · exact Or.inl hmem
    · rw [not_or] at hmem
      rw [hframe a hmem.1 hmem.2] at ha
      obtain ⟨b, hb⟩ := hh.live a ha
      exact Or.inr ⟨b, fun h0 => hmem.1 (h0 ▸ hb), hb⟩

/-- `delete_hash` on the key of `t` removes the hash node of `t`, provided no
older node of the bucket compares equal. -/
theorem deleteHash_spec (c : LruCache) (l1 l2 : List (ℕ × Fp)) (t : ℕ) (k : Fp)
    (ch : ℕ → List (ℕ × ℕ)) (hh : HashRep c (l1 ++ (t, k) :: l2) ch)
    (hk : HasKeys c (l1 ++ (t, k) :: l2)) (hold : ∀ e ∈ l2, keyMatch k e.2 = false) :
    ∃ nodes table ch', c.deleteHash k
        = some (true, { c with hashNodes := nodes, hashTable := table }) ∧
      HashRep { c with hashNodes := nodes, hashTable := table } (l1 ++ l2) ch' := by
  have hself : keyMatch k k = true := by simp [keyMatch, sameCStr_iff]
  obtain ⟨a, h1, h2, hch, hm1, hm2, hfind⟩ := findFrom_chain_some hh hk k hself hold
  have hseg := hh.seg (strHash k)
  have hnd := hh.nodup (strHash k)
  have hhead := hh.table (strHash k)
  rw [hch] at hseg hnd hhead
  obtain ⟨nodes, hun, hseg', hframe⟩ := unlink_spec c.hashNodes h1 h2 a t none hseg hnd
  have hmid : a ∉ addrs (h1 ++ h2) ∧ (addrs (h1 ++ h2)).Nodup := by
    have hnd' : (addrs h1 ++ a :: addrs h2).Nodup := by simpa [addrs] using hnd
    simpa [addrs] using List.nodup_cons.mp (List.nodup_middle.mp hnd')
  have hsub : ∀ x, x = a ∨ x ∈ addrs (h1 ++ h2) → x ∈ addrs (ch (strHash k)) := by
    intro x hx
    rw [hch]
    simp only [addrs, List.map_append, List.map_cons, List.mem_append, List.mem_cons] at hx ⊢
    tauto
  refine ⟨_, _, _, ?_, hh.updateBucket (strHash k) c.brk (h1 ++ h2) (nodes.free a) le_rfl
    (hseg'.update a none hmid.1) hmid.2 (fun x hx => Or.inl (hsub x (Or.inr hx))) ?_ ?_ ?_ ?_⟩
  · rw [LruCache.deleteHash, hfind]
    simp only [Option.bind_eq_bind, Option.bind_some, hhead, hun]
  · intro b hb x hx
    have hxa : x ≠ a := fun h0 => hb (hh.disjoint b _ x hx (hsub x (Or.inl h0)))
    rw [Store.free, Function.update_of_ne hxa]
    exact hframe x fun hx' => hb (hh.disjoint b _ x hx (hsub x (Or.inr hx')))
  · rw [bucketAddrs_append, List.map_append, hm1, hm2]
  · intro b hb
    rw [bucketAddrs_append, bucketAddrs_append, bucketAddrs_cons, if_neg (Ne.symm hb)]
  · intro x hx
    by_cases hmem : x ∈ addrs (h1 ++ h2)
    · exact Or.inl hmem
    · obtain ⟨hxa, hx'⟩ := ne_none_of_free hx
      rw [hframe x hmem] at hx'
      obtain ⟨b, hb⟩ := hh.live x hx'
      have hother : b ≠ strHash k := by
        intro h0
        rw [h0, hch] at hb
        exact (mem_addrs_middle hb).elim hxa hmem
      exact Or.inr ⟨b, hother, hb⟩

theorem deleteNode_spec (c : LruCache) (l1 l2 : List (ℕ × Fp)) (t : ℕ) (k : Fp)
    (ch : ℕ → List (ℕ × ℕ)) (hl : ListRep c (l1 ++ (t, k) :: l2))
    (hh : HashRep c (l1 ++ (t, k) :: l2) ch) (hold : ∀ e ∈ l2, keyMatch k e.2 = false) :
    ∃ c' ch', c.deleteNode (some t) = some (true, c') ∧ ListRep c' (l1 ++ l2) ∧
      HashRep c' (l1 ++ l2) ch' ∧ c'.nowCacheSize = c.nowCacheSize - 1 ∧
      c'.maxCacheSize = c.maxCacheSize := by
  obtain ⟨nodes, hun, hseg, hframe⟩ := unlink_spec c.listNodes l1 l2 t k
    (lastAddr none (l1 ++ (t, k) :: l2)) hl.seg hl.nodup
  rw [lastAddr_unlink] at hun
  have hnd : (t :: addrs (l1 ++ l2)).Nodup := by
    have := hl.nodup
    simp only [addrs, List.map_append, List.map_cons] at this ⊢
    exact List.nodup_middle.mp this
  have ht : t ∉ addrs (l1 ++ l2) := (List.nodup_cons.mp hnd).1
  -- the cache after the list was relinked: the node is still there to be compared with
  let c1 : LruCache := { c with
    nowCacheSize := c.nowCacheSize - 1
    listNodes := nodes
    head := headAddr (l1 ++ l2) none
    back := lastAddr none (l1 ++ l2) }
  have hk1 : HasKeys c1 (l1 ++ (t, k) :: l2) := by
    intro e he
    by_cases het : e = (t, k)
    · rw [het]
      exact ⟨_, _, (hframe t ht).trans hl.seg.at_node⟩
    · refine hseg.data_at (a := e.1) (x := e.2) ?_
      simp only [List.mem_append, List.mem_cons] at he ⊢
      tauto
  have hh1 : HashRep c1 (l1 ++ (t, k) :: l2) ch := hh.frame rfl rfl le_rfl
  obtain ⟨hn, tb, ch', hdel, hh2⟩ := deleteHash_spec c1 l1 l2 t k ch hh1 hk1 hold
  refine ⟨{ c1 with hashNodes := hn, hashTable := tb, listNodes := nodes.free t }, ch', ?_, ?_,
    hh2.frame rfl rfl le_rfl, rfl, rfl⟩
  · have hat := hl.seg.at_node
    simp only [LruCache.deleteNode, hat, Option.bind_eq_bind, Option.bind_some, hl.head, hl.back,
      hun]
    change (c1.deleteHash k).bind _ = _
    rw [hdel]
    rfl
  · refine ⟨hseg.update t none ht, rfl, rfl, (List.nodup_cons.mp hnd).2, ?_, ?_⟩
    · intro a ha
      apply hl.below a
      simp only [addrs, List.map_append, List.map_cons, List.mem_append, List.mem_cons] at ha ⊢
      tauto
    · intro a ha
      obtain ⟨hat, ha'⟩ := ne_none_of_free ha
      by_contra hmem
      rw [hframe a hmem] at ha'
      exact (mem_addrs_middle (hl.live a ha')).elim hat hmem

theorem deleteBack_spec (c : LruCache) (e : ℕ × Fp) (l : List (ℕ × Fp)) (ch : ℕ → List (ℕ × ℕ))
    (hl : ListRep c (e :: l)) (hh : HashRep c (e :: l) ch) :
    ∃ c' ch', c.deleteNode c.back = some (true, c') ∧ ListRep c' (e :: l).dropLast ∧
      HashRep c' (e :: l).dropLast ch' ∧ c'.nowCacheSize = c.nowCacheSize - 1 ∧
      c'.maxCacheSize = c.maxCacheSize := by
  obtain ⟨l1, ⟨t, x⟩, hsplit⟩ : ∃ l1 y, e :: l = l1 ++ [y] := by
    rcases List.eq_nil_or_concat (e :: l) with hnil | ⟨l1, y, hy⟩
    · cases hnil
    · exact ⟨l1, y, by rw [hy, List.concat_eq_append]⟩
  rw [hsplit] at hl hh ⊢
  rw [List.dropLast_concat, hl.back, lastAddr_concat]
  -- the last node of the list has no older match
  have hspec := deleteNode_spec c l1 [] t x ch hl hh (by simp)
  rw [List.append_nil] at hspec
  exact hspec

theorem addNodeToHead_link (c : LruCache) (l : List (ℕ × Fp)) (ch : ℕ → List (ℕ × ℕ)) (k : Fp)
    (h : Rep c l ch) :
    ∃ c2 ch2, c.addNodeToHead k
        = (if c2.nowCacheSize < c2.maxCacheSize then
            some (true, { c2 with nowCacheSize := c2.nowCacheSize + 1 })
          else (c2.deleteNode c2.back).bind fun r =>
            some (true, { r.2 with nowCacheSize := r.2.nowCacheSize + 1 })) ∧
      ListRep c2 ((c.brk, k) :: l) ∧ HashRep c2 ((c.brk, k) :: l) ch2 ∧
      c2.nowCacheSize = l.length ∧ c2.maxCacheSize = c.maxCacheSize := by
  have hq : c.brk ∉ addrs l := fun hb => Nat.lt_irrefl _ (h.list.below _ hb)
  obtain ⟨nodes, hpush, hseg, hframe⟩ :=
    pushFront_spec c.listNodes l c.brk k h.list.seg h.list.nodup hq
  let c1 : LruCache := { c with
    listNodes := nodes
    head := headAddr ((c.brk, k) :: l) none
    back := lastAddr none ((c.brk, k) :: l)
    brk := c.brk + 1 }
  have hh1 : HashRep c1 l ch := h.hash.frame rfl rfl (Nat.le_succ _)
  obtain ⟨hn, tb, ch2, hins, hh2⟩ := insertHash_spec c1 l ch k c.brk hh1
  refine ⟨{ c1 with hashNodes := hn, hashTable := tb, brk := c1.brk + 1 }, ch2, ?_, ?_, hh2,
    h.now, rfl⟩
  · simp only [LruCache.addNodeToHead, h.list.head, h.list.back, hpush, Option.bind_eq_bind,
      Option.bind_some]
    change (c1.insertHash k c.brk).bind _ = _
    rw [hins]
    rfl
  · refine ⟨hseg, rfl, rfl, List.nodup_cons.mpr ⟨hq, h.list.nodup⟩, ?_, ?_⟩
    · intro a ha
      rcases List.mem_cons.mp ha with ha | ha
      · rw [ha]
        exact Nat.lt_succ_of_lt (Nat.lt_succ_self _)
      · exact Nat.lt_succ_of_lt (Nat.lt_succ_of_lt (h.list.below a ha))
    · intro a ha
      by_contra hmem
      obtain ⟨hne, hnot⟩ : ¬ a = c.brk ∧ a ∉ addrs l := by simpa [addrs] using hmem
      have ha' : c.listNodes a ≠ none := by
        rw [← hframe a hnot hne]
        exact ha
      exact hnot (h.list.live a ha')

theorem addNodeToHead_spec (c : LruCache) (l : List (ℕ × Fp)) (ch : ℕ → List (ℕ × ℕ)) (k : Fp)
    (h : Rep c l ch) :
    ∃ c' l' ch', c.addNodeToHead k = some (true, c') ∧ Rep c' l' ch' ∧
      c'.maxCacheSize = c.maxCacheSize ∧
      l'.map Prod.snd = lruPush c.maxCacheSize (l.map Prod.snd) k := by
  obtain ⟨c2, ch2, hstart, hl2, hh2, hnow, hmax⟩ := addNodeToHead_link c l ch k h
  have hle := h.max
  rw [hnow, hmax] at hstart
  by_cases hroom : (l.length : ℤ) < c.maxCacheSize
  · rw [if_pos hroom] at hstart
    refine ⟨_, (c.brk, k) :: l, ch2, hstart, ⟨hl2.frame rfl rfl rfl le_rfl,
      hh2.frame rfl rfl le_rfl, ?_, ?_⟩, rfl, ?_⟩
    · simp
    · simp only [List.length_cons]
      push_cast
      omega
    · rw [lruPush, List.length_map, if_pos hroom]
      rfl
  · rw [if_neg hroom] at hstart
    obtain ⟨c3, ch3, hdel, hl3, hh3, hnow3, hmax3⟩ := deleteBack_spec c2 _ l ch2 hl2 hh2
    rw [hdel] at hstart
    refine ⟨_, ((c.brk, k) :: l).dropLast, ch3, hstart, ⟨hl3.frame rfl rfl rfl le_rfl,
      hh3.frame rfl rfl le_rfl, ?_, ?_⟩, hmax3.trans hmax, ?_⟩
    · simp [hnow3, hnow]
    · simpa [hmax3, hmax] using hle
    · rw [lruPush, List.length_map, if_neg hroom, List.map_dropLast]
      rfl

theorem Rep.deleteNode {c : LruCache} {l1 l2 : List (ℕ × Fp)} {t : ℕ} {k : Fp}
    {ch : ℕ → List (ℕ × ℕ)} (h : Rep c (l1 ++ (t, k) :: l2) ch)
    (hold : ∀ e ∈ l2, keyMatch k e.2 = false) :
    ∃ c' ch', c.deleteNode (some t) = some (true, c') ∧ Rep c' (l1 ++ l2) ch' ∧
      c'.maxCacheSize = c.maxCacheSize ∧ ((l1 ++ l2).length : ℤ) < c'.maxCacheSize := by
  obtain ⟨c', ch', hdel, hl, hh, hnow, hmax⟩ := deleteNode_spec c l1 l2 t k ch h.list h.hash hold
  have hlen : ((l1 ++ (t, k) :: l2).length : ℤ) = (l1 ++ l2).length + 1 := by
    simp only [List.length_append, List.length_cons]
    push_cast
    omega
  have hnow0 := h.now
  have hmax0 := h.max
  refine ⟨c', ch', hdel, ⟨hl, hh, ?_, ?_⟩, hmax, ?_⟩
  · omega
  · omega
  · omega

/-- The cache holds the keys `ks`, most recent first. -/
def Caches (c : LruCache) (ks : List Fp) : Prop := ∃ l ch, Rep c l ch ∧ l.map Prod.snd = ks

theorem Caches.length_le {c : LruCache} {ks : List Fp} (h : Caches c ks) :
    (ks.length : ℤ) ≤ c.maxCacheSize := by
  obtain ⟨l, ch, hr, rfl⟩ := h
  simpa using hr.max

theorem Caches.now {c : LruCache} {ks : List Fp} (h : Caches c ks) :
    c.nowCacheSize = ks.length := by
  obtain ⟨l, ch, hr, rfl⟩ := h
  simpa using hr.now

theorem Caches.recency {c : LruCache} {ks : List Fp} (h : Caches c ks) :
    c.recency = some ks := by
  obtain ⟨l, ch, hr, rfl⟩ := h
  rw [LruCache.recency, hr.list.head]
  exact walk_spec _ none l hr.list.seg c.brk hr.list.length_le

theorem caches_new (m : ℤ) (hm : 0 ≤ m) : Caches (LruCache.new m) [] := by
  refine ⟨[], fun _ => [], ⟨⟨trivial, rfl, rfl, List.nodup_nil, by simp [addrs],
    fun _ h => absurd rfl h⟩, ?_, rfl, hm⟩, rfl⟩
  exact ⟨fun _ => trivial, fun _ => rfl, fun _ => List.nodup_nil, by simp [addrs], by simp [addrs],
    fun _ => rfl, fun _ h => absurd rfl h⟩

theorem Caches.addNodeToHead {c : LruCache} {ks : List Fp} (h : Caches c ks) (k : Fp) :
    ∃ c', c.addNodeToHead k = some (true, c') ∧ c'.maxCacheSize = c.maxCacheSize ∧
      Caches c' (lruPush c.maxCacheSize ks k) := by
  obtain ⟨l, ch, hr, rfl⟩ := h
  obtain ⟨c', l', ch', hadd, hr', hmax, hkeys⟩ := addNodeToHead_spec c l ch k hr
  exact ⟨c', hadd, hmax, l', ch', hr', hkeys⟩

theorem keyMatch_congr (str k x : Fp) (h : keyMatch str k = true) :
    keyMatch k x = keyMatch str x := by
  simp only [keyMatch, Bool.and_eq_true, decide_eq_true_eq, sameCStr_iff] at h
  rw [Bool.eq_iff_iff]
  simp only [keyMatch, Bool.and_eq_true, decide_eq_true_eq, sameCStr_iff, h.1, h.2]

theorem Caches.find {c : LruCache} {ks : List Fp} (h : Caches c ks) (str : Fp) :
    ∃ c', c.find str = some ((lruFind ks str).1, c') ∧ c'.maxCacheSize = c.maxCacheSize ∧
      Caches c' (lruFind ks str).2 := by
  obtain ⟨l, ch, hr, rfl⟩ := h
  cases herase : eraseOldest str (l.map Prod.snd) with
  | none =>
    have hno : ∀ e ∈ l, keyMatch str e.2 = false := fun e he =>
      (eraseOldest_eq_none_iff str _).mp herase e.2 (List.mem_map.mpr ⟨e, he, rfl⟩)
    refine ⟨c, ?_, rfl, l, ch, hr, by simp [lruFind, herase]⟩
    rw [LruCache.find, LruCache.findHash, findFrom_chain_none hr.hash hr.list.hasKeys str hno]
    simp [lruFind, herase]
  | some ks' =>
    obtain ⟨k1, x, k2, hsplit, hx, hold, hks'⟩ := eraseOldest_split str _ _ herase
    obtain ⟨l1, l', rfl, rfl, hl'⟩ := List.map_eq_append_iff.mp hsplit
    obtain ⟨⟨t, y⟩, l2, rfl, hty, rfl⟩ := List.map_eq_cons_iff.mp hl'
    simp only at hty
    subst hty
    have hold' : ∀ e ∈ l2, keyMatch str e.2 = false := fun e he =>
      hold e.2 (List.mem_map.mpr ⟨e, he, rfl⟩)
    obtain ⟨a, h1, h2, hch, -, -, hfind⟩ :=
      findFrom_chain_some hr.hash hr.list.hasKeys str hx hold'
    have hseg := hr.hash.seg (strHash str)
    rw [hch] at hseg
    have hnode := hseg.at_node
    obtain ⟨c2, ch2, hdel, hr2, hmax2, hlt⟩ := hr.deleteNode
      (fun e he => by rw [keyMatch_congr str y e.2 hx]; exact hold' e he)
    obtain ⟨c3, hadd, hmax3, hc3⟩ := Caches.addNodeToHead ⟨l1 ++ l2, ch2, hr2, rfl⟩ str
    have hroom : (((l1 ++ l2).map Prod.snd).length : ℤ) < c2.maxCacheSize := by
      rw [List.length_map]
      exact hlt
    refine ⟨c3, ?_, hmax3.trans hmax2, ?_⟩
    · rw [LruCache.find, LruCache.findHash, hfind]
      simp only [Option.bind_eq_bind, Option.bind_some, hnode, hdel, hadd, lruFind, herase]
    · rw [lruPush, if_pos hroom] at hc3
      rw [lruFind, herase, hks']
      simpa using hc3

theorem Caches.putdata {c : LruCache} {ks : List Fp} (h : Caches c ks) (str : Fp) :
    ∃ c', c.putdata str = some ((lruPut c.maxCacheSize ks str).1, c') ∧
      c'.maxCacheSize = c.maxCacheSize ∧ Caches c' (lruPut c.maxCacheSize ks str).2 := by
  obtain ⟨c1, hfind, hmax1, hc1⟩ := h.find str
  cases hres : lruFind ks str with
  | mk hit ks1 =>
    rw [hres] at hfind hc1
    cases hit with
    | true =>
      refine ⟨c1, ?_, hmax1, by simpa [lruPut, hres] using hc1⟩
      simp [LruCache.putdata, hfind, lruPut, hres]
    | false =>
      have hsame : ks1 = ks := by
        unfold lruFind at hres
        split at hres <;> simp_all
      rw [hsame] at hc1
      obtain ⟨c2, hadd, hmax2, hc2⟩ := hc1.addNodeToHead str
      refine ⟨c2, ?_, hmax2.trans hmax1, by simpa [lruPut, hres, hmax1] using hc2⟩
      simp [LruCache.putdata, hfind, lruPut, hres, hadd]

end FreqAnalysis.Ddfs
