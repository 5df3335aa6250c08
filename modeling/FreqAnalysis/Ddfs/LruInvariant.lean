import FreqAnalysis.Ddfs.LruConf

/-!
# The linked structure of the cache in every state

`delete_node` finds the hash node to delete by its key, not by the node that is
deleted. The age order of the chains makes it the right one, so whatever files are
loaded and whatever calls are made, the hash nodes and the list nodes stay in
one-to-one correspondence and no pointer dangles.
-/

namespace FreqAnalysis.Ddfs
open Base Base.Store LruCache

inductive Op where
  | initConf (conf : Option (List Char))
  | call (a : Call)

def LruCache.perform (c : LruCache) : Op → Option LruCache
  | .initConf conf => c.initConf conf
  | .call a => (c.call a).map Prod.snd

/-- Every hash node points at a node of the list and stands in the chain of that
node's bucket, and every node of the list has exactly one hash node. -/
structure Referenced (c : LruCache) (l : List (ℕ × Fp)) (ch : ℕ → List (ℕ × ℕ)) : Prop where
  valid : ∀ a nd, c.hashNodes a = some nd → ∃ k nx fr, (nd.data, k) ∈ l ∧
    c.listNodes nd.data = some ⟨k, nx, fr⟩ ∧ a ∈ addrs (ch (strHash k))
  once : ∀ p ∈ addrs l, ∃! a, (c.hashNodes a).map Link.data = some p

section Bijection

variable {c : LruCache} {l : List (ℕ × Fp)} {ch : ℕ → List (ℕ × ℕ)}

theorem HashRep.entry (h : HashRep c l ch) {a : ℕ} {nd : Link ℕ} (ha : c.hashNodes a = some nd) :
    ∃ b, (a, nd.data) ∈ ch b := by
  obtain ⟨b, hb⟩ := h.live a (by rw [ha]; exact Option.some_ne_none nd)
  obtain ⟨⟨a', x⟩, he, rfl⟩ := List.mem_map.mp hb
  obtain ⟨nx, fr, hat⟩ := (h.seg b).data_at he
  have hnd : nd = ⟨x, nx, fr⟩ := Option.some.inj (ha.symm.trans hat)
  rw [hnd]
  exact ⟨b, he⟩

theorem HashRep.key_of_entry (h : HashRep c l ch) {a b p : ℕ} (he : (a, p) ∈ ch b) :
    ∃ k, (p, k) ∈ l ∧ strHash k = b := by
  apply (mem_bucketAddrs b p l).mp
  rw [← h.pos b]
  exact List.mem_map.mpr ⟨(a, p), he, rfl⟩

theorem bucketAddrs_nodup (b : ℕ) (h : (addrs l).Nodup) : (bucketAddrs b l).Nodup := by
  rw [bucketAddrs, addrs, List.map_reverse, List.nodup_reverse]
  exact h.sublist (List.filter_sublist.map Prod.fst)

/-- Two hash nodes of one list node are the same node of the same chain. -/
theorem HashRep.entry_unique (hl : ListRep c l) (h : HashRep c l ch) {a a' b b' p : ℕ}
    (he : (a, p) ∈ ch b) (he' : (a', p) ∈ ch b') : a = a' := by
  obtain ⟨k, hk, rfl⟩ := h.key_of_entry he
  obtain ⟨k', hk', rfl⟩ := h.key_of_entry he'
  have hkk : k = k' := congrArg Prod.snd (List.inj_on_of_nodup_map hl.nodup hk hk' rfl)
  subst hkk
  have hnodup : ((ch (strHash k)).map Prod.snd).Nodup := by
    rw [h.pos]
    exact bucketAddrs_nodup _ hl.nodup
  exact congrArg Prod.fst (List.inj_on_of_nodup_map hnodup he he' rfl)

theorem Rep.referenced (h : Rep c l ch) : Referenced c l ch := by
  constructor
  · intro a nd ha
    obtain ⟨b, he⟩ := h.hash.entry ha
    obtain ⟨k, hk, rfl⟩ := h.hash.key_of_entry he
    obtain ⟨nx, fr, hat⟩ := h.list.hasKeys (nd.data, k) hk
    exact ⟨k, nx, fr, hk, hat, List.mem_map.mpr ⟨_, he, rfl⟩⟩
  · intro p hp
    obtain ⟨⟨p', k⟩, hk, rfl⟩ := List.mem_map.mp hp
    have hmem : p' ∈ (ch (strHash k)).map Prod.snd := by
      rw [h.hash.pos]
      exact (mem_bucketAddrs _ _ _).mpr ⟨k, hk, rfl⟩
    obtain ⟨⟨a, q⟩, he, rfl⟩ := List.mem_map.mp hmem
    obtain ⟨nx, fr, hat⟩ := (h.hash.seg _).data_at he
    have hdata : (c.hashNodes a).map Link.data = some q := by
      rw [hat]
      rfl
    refine ⟨a, hdata, ?_⟩
    intro a' ha'
    obtain ⟨nd, hnd, hdata'⟩ := Option.map_eq_some_iff.mp ha'
    obtain ⟨b', he'⟩ := h.hash.entry hnd
    rw [hdata'] at he'
    exact HashRep.entry_unique h.list h.hash he' he

end Bijection

theorem Caches.perform {c : LruCache} {ks : List Fp} (h : Caches c ks) (op : Op) :
    ∃ c' ks', c.perform op = some c' ∧ c'.maxCacheSize = c.maxCacheSize ∧ Caches c' ks' := by
  cases op with
  | initConf conf => exact h.initConf conf
  | call a =>
    obtain ⟨c', hcall, hmax, hc⟩ := h.call a
    exact ⟨c', _, by rw [LruCache.perform, hcall, Option.map_some], hmax, hc⟩

theorem Caches.performAll {c : LruCache} {ks : List Fp} (h : Caches c ks) (ops : List Op) :
    ∃ c' ks', ops.foldlM LruCache.perform c = some c' ∧
      c'.maxCacheSize = c.maxCacheSize ∧ Caches c' ks' := by
  induction ops generalizing c ks with
  | nil => exact ⟨c, ks, rfl, rfl, h⟩
  | cons op ops ih =>
    obtain ⟨c1, ks1, hop, hmax1, hc1⟩ := h.perform op
    obtain ⟨c2, ks2, hops, hmax2, hc2⟩ := ih hc1
    refine ⟨c2, ks2, ?_, hmax2.trans hmax1, hc2⟩
    rw [List.foldlM_cons, hop]
    exact hops

/-- No sequence of operations follows a dangling pointer, and the cache it leaves
is well linked. -/
theorem lru_well_linked (m : ℕ) (ops : List Op) :
    ∃ c l ch, ops.foldlM LruCache.perform (LruCache.new m) = some c ∧ Rep c l ch ∧
      c.maxCacheSize = m ∧ Referenced c l ch := by
  obtain ⟨c, ks, hrun, hmax, l, ch, hrep, -⟩ :=
    (caches_new m (Int.natCast_nonneg m)).performAll ops
  exact ⟨c, l, ch, hrun, hrep, hmax, hrep.referenced⟩

end FreqAnalysis.Ddfs
