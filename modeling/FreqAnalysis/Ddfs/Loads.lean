import FreqAnalysis.Ddfs.LruAbstract
import FreqAnalysis.Ddfs.Store

/-!
# Container files are read once

A chunk that is found through the index loads its whole container into the cache. As long
as the distinct fingerprints fit into the cache, nothing is evicted, the conf file carries
the cached keys over restarts, and a chunk of a loaded container is a cache hit from then
on: no container file is read twice, over any number of runs. This needs fingerprints
without an inner NUL, since a container read from its file holds C strings.
-/

namespace FreqAnalysis.Ddfs
open Base

/-! ### Fingerprints that survive a file -/

def Intact (l : List Fp) : Prop := ∀ x ∈ l, ContainerManager.NoInnerNul x

theorem Intact.mono {l l' : List Fp} (h : Intact l') (hsub : ∀ x ∈ l, x ∈ l') : Intact l :=
  fun x hx => h x (hsub x hx)

theorem eq_of_cStr_eq {x y : Fp} (hx : ContainerManager.NoInnerNul x)
    (h : cStr x.val = cStr y.val) : x = y := by
  have hlen : fpSize - 1 ≤ (cStr x.val).length := by
    by_contra hlt
    exact hx (cStr x.val).length (by omega) (getD_cStr_length x.val)
  have hy : ContainerManager.NoInnerNul y := by
    intro k hk h0
    have hlt : k < (cStr y.val).length := h ▸ Nat.lt_of_lt_of_le hk hlen
    exact (getD_cStr y.val k hlt).2 h0
  -- written to a file, both are the same C string followed by the same bytes
  have hbyte : ContainerManager.tempByte (fun _ => 0) x = ContainerManager.tempByte (fun _ => 0) y := by
    funext k
    simp only [ContainerManager.tempByte, h]
  have hfile : ContainerManager.tempBytes (fun _ => 0) x = ContainerManager.tempBytes (fun _ => 0) y := by
    rw [ContainerManager.tempBytes, ContainerManager.tempBytes, hbyte]
  rw [(ContainerManager.tempBytes_eq_iff x).mpr hx, (ContainerManager.tempBytes_eq_iff y).mpr hy]
    at hfile
  exact Subtype.ext hfile

theorem unambiguous_of_intact {l : List Fp} (h : Intact l) : Unambiguous l :=
  fun x hx y _ hxy => eq_of_cStr_eq (h x hx) ((sameCStr_iff x y).mp hxy)

/-! ### A cache that is never full -/

/-- The cache holds the keys `K`, all of them stored. -/
structure Warm (lpc : LruCache) (stored K : List Fp) : Prop where
  max : lpc.maxCacheSize = lruSize
  caches : Caches lpc K
  apart : Apart K
  sub : ∀ k ∈ K, k ∈ stored

namespace Warm

variable {lpc : LruCache} {stored K : List Fp}

theorem new (stored : List Fp) : Warm (LruCache.new lruSize) stored [] :=
  ⟨rfl, caches_new lruSize (Int.natCast_nonneg _), List.Pairwise.nil,
    fun _ hk => absurd hk List.not_mem_nil⟩

theorem mono {stored' : List Fp} (h : Warm lpc stored K) (hsub : ∀ x ∈ stored, x ∈ stored') :
    Warm lpc stored' K :=
  ⟨h.max, h.caches, h.apart, fun k hk => hsub k (h.sub k hk)⟩

theorem cachedFrom (h : Warm lpc stored K) : CachedFrom lpc stored :=
  ⟨h.max, K, h.caches, fun k hk => ⟨k, h.sub k hk, rfl⟩⟩

theorem miss (h : Warm lpc stored K) (hin : Intact stored) {str : Fp} (hstr : str ∉ K) :
    lruFind K str = (false, K) := by
  rw [miss_iff_of_not_mem hstr]
  intro k hk hmatch
  simp only [keyMatch, Bool.and_eq_true, sameCStr_iff] at hmatch
  exact eq_of_cStr_eq (hin k (h.sub k hk)) hmatch.2

theorem find (h : Warm lpc stored K) (hin : Intact stored) (str : Fp) :
    ∃ lpc' K', lpc.find str = some (decide (str ∈ K), lpc') ∧ Warm lpc' stored K' ∧
      ∀ x, x ∈ K' ↔ x ∈ K := by
  obtain ⟨lpc', hfind, hmax, hc⟩ := h.caches.find str
  have hap := h.apart.lruFind str
  by_cases hstr : str ∈ K
  · rw [lruFind_of_mem h.apart hstr] at hfind hc hap
    have hmem : ∀ x, x ∈ str :: K.filter (· ≠ str) ↔ x ∈ K := by
      intro x
      by_cases hx : x = str
      · simp [hx, hstr]
      · simp [hx]
    refine ⟨lpc', _, ?_, ⟨hmax.trans h.max, hc, hap, ?_⟩, hmem⟩
    · rw [hfind, decide_eq_true hstr]
    · intro k hk
      exact h.sub k ((hmem k).mp hk)
  · rw [h.miss hin hstr] at hfind hc
    refine ⟨lpc', K, ?_, ⟨hmax.trans h.max, hc, h.apart, h.sub⟩, fun _ => Iff.rfl⟩
    rw [hfind, decide_eq_false hstr]

theorem length_lt (h : Warm lpc stored K) (hroom : stored.length ≤ lruSize) {str : Fp}
    (hmem : str ∈ stored) (hstr : str ∉ K) : K.length < lruSize := by
  have hle : (str :: K).length ≤ stored.length := by
    apply (List.nodup_cons.mpr ⟨hstr, h.apart.nodup⟩).length_le_of_subset
    intro x hx
    rcases List.mem_cons.mp hx with rfl | hx
    · exact hmem
    · exact h.sub x hx
  rw [List.length_cons] at hle
  omega

/-- Nothing is evicted. -/
theorem putdata (h : Warm lpc stored K) (hin : Intact stored) (hroom : stored.length ≤ lruSize)
    {str : Fp} (hmem : str ∈ stored) :
    ∃ r lpc' K', lpc.putdata str = some (r, lpc') ∧ Warm lpc' stored K' ∧
      ∀ x, x ∈ K' ↔ x ∈ K ∨ x = str := by
  obtain ⟨lpc', hput, hmax, hc⟩ := h.caches.putdata str
  have hap : Apart (lruPut lpc.maxCacheSize K str).2 := h.apart.lruPut str
  have hkeys : ∀ x, x ∈ (lruPut lpc.maxCacheSize K str).2 ↔ x ∈ K ∨ x = str := by
    intro x
    refine ⟨mem_lruPut lpc.maxCacheSize K str x, ?_⟩
    intro hx
    by_cases hstr : str ∈ K
    · have hxK : x ∈ K := by
        rcases hx with hx | rfl
        · exact hx
        · exact hstr
      rw [lruPut, lruFind_of_mem h.apart hstr]
      by_cases hxs : x = str
      · simp [hxs]
      · simp [hxs, hxK]
    · have hlt := h.length_lt hroom hmem hstr
      rw [(lruPut_eq_push_iff lpc.maxCacheSize K str).mpr (h.miss hin hstr), lruPush, h.max,
        if_pos (by exact_mod_cast hlt)]
      rcases hx with hx | rfl
      · exact List.mem_cons_of_mem _ hx
      · exact List.mem_cons_self
  refine ⟨_, lpc', _, hput, ⟨hmax.trans h.max, hc, hap, ?_⟩, hkeys⟩
  intro k hk
  rcases (hkeys k).mp hk with hk | rfl
  · exact h.sub k hk
  · exact hmem

theorem restart (h : Warm lpc stored K) :
    ∃ conf lpc', lpc.outputConf = some conf ∧
      (LruCache.new lruSize).initConf (some conf) = some lpc' ∧ Warm lpc' stored K.reverse := by
  obtain ⟨lpc', hre, hmax, hc⟩ := h.caches.restart h.max
  obtain ⟨conf, hout, hload⟩ := Option.bind_eq_some_iff.mp hre
  exact ⟨conf, lpc', hout, hload, hmax, hc, h.apart.reverse,
    fun k hk => h.sub k (List.mem_reverse.mp hk)⟩

end Warm

/-! ### What a chunk reads -/

section System

variable {P : Params}

/-- The container file that `loadtonode` opens for a chunk. -/
def fileRead (P : Params) (s : State P.size) (c : Chunk) : Option ℤ :=
  match s.lpc.find c.hash with
  | some (false, _) =>
    if bloomCheck P.hash s.blm c.hash.val = 0 then none
    else
      let fpid := fpFind s.index c.hash
      if fpid = -1 then none
      else if (s.volume.files (decimal fpid)).isSome then some fpid else none
  | _ => none

def traceReads (P : Params) (s : State P.size) : List Chunk → List ℤ
  | [] => []
  | c :: trace =>
    match readChunk P s c with
    | .ok s' => (fileRead P s c).toList ++ traceReads P s' trace
    | .error _ => []

def runReads (P : Params) (s : State P.size) (trace : List Chunk) : List ℤ :=
  match sysIni P s with
  | .ok s' => traceReads P s' trace
  | .error _ => []

/-- The container files read in a sequence of runs, in order. -/
def fileReads (P : Params) (s : State P.size) : List (List Chunk) → List ℤ
  | [] => []
  | trace :: traces =>
    match ddfs P s trace with
    | .ok s' => runReads P s trace ++ fileReads P s' traces
    | .error _ => []

/-- All fingerprints indexed under a container that was read are cached. -/
structure ReadInv (s : State P.size) (K : List Fp) (reads : List ℤ) : Prop where
  warm : Warm s.lpc s.volume.inserted K
  cached : ∀ id ∈ reads, ∀ x, s.index.get x = some id → x ∈ K
  below : ∀ id ∈ reads, 0 ≤ id ∧ id < s.cmr.nowId
  once : reads.Nodup

theorem loadtonode_of_indexed {s : State P.size} (h : Inv P s) (hin : Intact s.volume.inserted)
    {x : Fp} {id : ℤ} (hget : s.index.get x = some id) :
    x ∈ (s.cmr.loadtonode s.volume id).2 ∧
      (∀ k ∈ (s.cmr.loadtonode s.volume id).2, k ∈ s.volume.inserted) ∧
      ((s.volume.files (decimal id)).isSome = true → 0 ≤ id ∧ id < s.cmr.nowId) := by
  rcases h.containers.located x id hget with ⟨l, hl, hxl⟩ | ⟨rfl, hx⟩
  · obtain ⟨h0, hlt, hfile⟩ := h.containers.written id l hl
    have hno : Intact l := hin.mono (h.containers.written_inserted id l hl)
    rw [ContainerManager.loadtonode_of_text (P.stale id) s.cmr s.volume id l hfile,
      (ContainerManager.reloaded_eq_iff l).mpr hno]
    exact ⟨hxl, h.containers.written_inserted id l hl, fun _ => ⟨h0, hlt⟩⟩
  · have hfresh := h.containers.fresh s.cmr.nowId le_rfl
    have hload : s.cmr.loadtonode s.volume s.cmr.nowId = (true, s.cmr.tmp) := by
      simp [ContainerManager.loadtonode, hfresh]
    rw [hload, hfresh]
    exact ⟨hx, h.containers.tmp_inserted, fun hsome => absurd hsome Bool.false_ne_true⟩

theorem Warm.loadCache {s : State P.size} {K : List Fp} (h : Warm s.lpc s.volume.inserted K)
    (hin : Intact s.volume.inserted) (hroom : s.volume.inserted.length ≤ lruSize)
    (conti : List Fp) (hconti : ∀ k ∈ conti, k ∈ s.volume.inserted) :
    ∃ lpc K', Ddfs.loadCache P s conti
        = .ok { s with lpc := lpc, loadingAccess := s.loadingAccess + conti.length } ∧
      Warm lpc s.volume.inserted K' ∧ ∀ x, x ∈ K' ↔ x ∈ K ∨ x ∈ conti := by
  induction conti generalizing s K with
  | nil => exact ⟨s.lpc, K, rfl, h, by simp⟩
  | cons k conti ih =>
    obtain ⟨r, lpc, K1, hput, h1, hK1⟩ := h.putdata hin hroom (hconti k List.mem_cons_self)
    obtain ⟨lpc', K', hload, h', hK'⟩ := ih
      (s := { s with lpc := lpc, loadingAccess := s.loadingAccess + 1 }) h1 hin hroom
      (fun x hx => hconti x (List.mem_cons_of_mem _ hx))
    refine ⟨lpc', K', ?_, h', ?_⟩
    · simp only [Ddfs.loadCache, List.foldlM_cons, hput, orCrash, bind, Except.bind] at hload ⊢
      rw [hload, List.length_cons, Nat.add_assoc, Nat.add_comm 1]
    · intro x
      rw [hK', hK1, List.mem_cons, or_assoc]

theorem fileRead_eq_some {s : State P.size} {c : Chunk} {id i : ℤ}
    (hget : s.index.get c.hash = some id) (h : fileRead P s c = some i) :
    i = id ∧ (s.volume.files (decimal i)).isSome = true := by
  unfold fileRead at h
  split at h
  · dsimp only at h
    split_ifs at h with hbloom hnone hfile
    have hi : fpFind s.index c.hash = id := by simp only [fpFind, hget, Option.getD_some]
    obtain rfl := Option.some.inj h
    exact ⟨hi, hfile⟩
  · cases h

theorem ContainerManager.nowId_le_pocessw (cm : ContainerManager) (v : Volume)
    (stale : ℕ → ℕ → Byte) : cm.nowId ≤ (cm.pocessw stale v).2.1.nowId := by
  unfold ContainerManager.pocessw
  split
  · exact le_rfl
  · simp

theorem ContainerManager.nowId_le_insert (cm : ContainerManager) (v : Volume)
    (stale : ℕ → ℕ → Byte) (str : Fp) (size : ℤ) :
    cm.nowId ≤ (cm.insert stale v str size).1.nowId := by
  unfold ContainerManager.insert
  by_cases hfull : cInt (cm.nowSize + size) > maxSize
  · simp only [if_pos hfull]
    exact cm.nowId_le_pocessw v stale
  · simp only [if_neg hfull]
    exact le_rfl

theorem ReadInv.punique {s : State P.size} {K : List Fp} {reads : List ℤ} (h : ReadInv s K reads)
    (hr : Inv P s) {key : Fp} (size : ℤ) (hget : s.index.get key = none) :
    ReadInv (punique P s key size) K reads := by
  have hins : (Ddfs.punique P s key size).volume.inserted = s.volume.inserted ++ [key] :=
    (hr.containers.insert key size).2.1
  have hindex : (Ddfs.punique P s key size).index
      = s.index.put key (Ddfs.punique P s key size).cmr.nowId := by
    simp only [Ddfs.punique, fpInsert, hget]
  have hnext : s.cmr.nowId ≤ (Ddfs.punique P s key size).cmr.nowId :=
    s.cmr.nowId_le_insert s.volume (P.stale s.cmr.nowId) key size
  refine ⟨h.warm.mono ?_, ?_, ?_, h.once⟩
  · intro x hx
    rw [hins]
    exact List.mem_append_left _ hx
  · intro id hid x hx
    have hlt := (h.below id hid).2
    rw [hindex] at hx
    by_cases hkey : x = key
    · rw [hkey, SortedMap.get_put_self, Option.some.injEq] at hx
      omega
    · rw [SortedMap.get_put_ne _ _ _ _ hkey] at hx
      exact h.cached id hid x hx
  · intro id hid
    have hlt := h.below id hid
    omega

/-- A chunk reads a container file only if it has not been read before. -/
theorem ReadInv.readChunk {s : State P.size} {K : List Fp} {reads : List ℤ}
    (h : ReadInv s K reads) (hr : Inv P s) (hin : Intact s.volume.inserted)
    (hroom : s.volume.inserted.length ≤ lruSize) (c : Chunk) :
    ∃ s' K', Ddfs.readChunk P s c = .ok s' ∧ ReadInv s' K' (reads ++ (fileRead P s c).toList) := by
  obtain ⟨lpc, K1, hfind, h1, hK1⟩ := h.warm.find hin c.hash
  have hw : ∀ n l, ReadInv { s with lpc := lpc, indexAccess := n, loadingAccess := l } K1 reads :=
    fun n l => ⟨h1, fun id hid x hx => (hK1 x).mpr (h.cached id hid x hx), h.below, h.once⟩
  by_cases hK : c.hash ∈ K
  · rw [decide_eq_true hK] at hfind
    have hread : fileRead P s c = none := by simp only [fileRead, hfind]
    refine ⟨_, K1, readChunk_hit hfind, ?_⟩
    rw [hread, Option.toList_none, List.append_nil]
    exact hw s.indexAccess s.loadingAccess
  rw [decide_eq_false hK] at hfind
  cases hget : s.index.get c.hash with
  | none =>
    have hread : fileRead P s c = none := by simp [fileRead, hfind, fpFind, hget]
    obtain ⟨n, hchunk⟩ := readChunk_unique (P := P) hfind hget
    have hinv := hr.withLpc lpc n s.loadingAccess (h1.cachedFrom)
    refine ⟨_, K1, hchunk, ?_⟩
    rw [hread, Option.toList_none, List.append_nil]
    exact (hw n s.loadingAccess).punique hinv c.size hget
  | some id =>
    obtain ⟨conti, hload, -⟩ := hr.containers.loadtonode c.hash id hget
    obtain ⟨-, hconti, hfile⟩ := loadtonode_of_indexed hr hin hget
    rw [hload] at hconti
    obtain ⟨lpc', K', hcache, h', hK'⟩ := Warm.loadCache
      (s := { s with lpc := lpc, indexAccess := s.indexAccess + 1 }) h1 hin hroom conti hconti
    refine ⟨_, K', (readChunk_dup hr id conti hfind hget hload).trans hcache, ?_⟩
    have hkept : ∀ i ∈ reads, ∀ x, s.index.get x = some i → x ∈ K' :=
      fun i hi x hx => (hK' x).mpr (Or.inl ((hK1 x).mpr (h.cached i hi x hx)))
    cases hread : fileRead P s c with
    | none =>
      rw [Option.toList_none, List.append_nil]
      exact ⟨h', hkept, h.below, h.once⟩
    | some i =>
      obtain ⟨rfl, hsome⟩ := fileRead_eq_some hget hread
      rw [Option.toList_some]
      refine ⟨h', List.forall_mem_append.mpr ⟨hkept, List.forall_mem_singleton.mpr ?_⟩,
        List.forall_mem_append.mpr ⟨h.below, List.forall_mem_singleton.mpr (hfile hsome)⟩, ?_⟩
      · intro x hx
        have hmem := (loadtonode_of_indexed hr hin hx).1
        rw [hload] at hmem
        exact (hK' x).mpr (Or.inr hmem)
      · -- the chunk itself would have been cached
        rw [← List.concat_eq_append]
        exact h.once.concat fun hi => hK (h.cached i hi c.hash hget)

/-! ### Runs -/

theorem Inv.inserted_readChunk {s s' : State P.size} (h : Inv P s) {c : Chunk}
    (hread : Ddfs.readChunk P s c = .ok s') :
    ∀ x ∈ s'.volume.inserted, x ∈ s.volume.inserted ∨ x = c.hash := by
  intro x hx
  rcases h.readChunk_cases c with ⟨t, ht, ⟨-, hvol, -⟩, -⟩ | ⟨-, lpc, n, ht⟩
  · obtain rfl := Except.ok.inj (ht.symm.trans hread)
    exact Or.inl (hvol ▸ hx)
  · obtain rfl := Except.ok.inj (ht.symm.trans hread)
    have hins : (Ddfs.punique P { s with lpc := lpc, indexAccess := n } c.hash c.size).volume.inserted
        = s.volume.inserted ++ [c.hash] := (h.containers.insert c.hash c.size).2.1
    rw [hins] at hx
    exact (List.mem_append.mp hx).imp_right List.mem_singleton.mp

/-- The fingerprints of the traces fit into the cache. -/
structure Fits (all : List Fp) : Prop where
  intact : Intact all
  room : all.eraseDups.length ≤ lruSize

theorem Fits.stored {all : List Fp} (hall : Fits all) {ph : Phase} {s : State P.size}
    (hr : RunInv P ph s) (hsub : ∀ x ∈ s.volume.inserted, x ∈ all) :
    Intact s.volume.inserted ∧ s.volume.inserted.length ≤ lruSize := by
  refine ⟨hall.intact.mono hsub, le_trans ?_ hall.room⟩
  exact hr.inv.once.length_le_of_subset fun x hx => List.mem_eraseDups.mpr (hsub x hx)

theorem ReadInv.readChunks {all : List Fp} (hall : Fits all) {s : State P.size} {K : List Fp}
    {reads : List ℤ} (h : ReadInv s K reads) (hr : RunInv P .running s)
    (hsub : ∀ x ∈ s.volume.inserted, x ∈ all) (trace : List Chunk)
    (htrace : ∀ c ∈ trace, c.hash ∈ all) :
    ∃ s' K', trace.foldlM (Ddfs.readChunk P) s = .ok s' ∧ RunInv P .running s' ∧
      (∀ x ∈ s'.volume.inserted, x ∈ all) ∧ ReadInv s' K' (reads ++ traceReads P s trace) := by
  induction trace generalizing s K reads with
  | nil => exact ⟨s, K, rfl, hr, hsub, by rwa [traceReads, List.append_nil]⟩
  | cons c trace ih =>
    obtain ⟨hc, htrace⟩ := List.forall_mem_cons.mp htrace
    obtain ⟨hin, hroom⟩ := hall.stored hr hsub
    obtain ⟨s1, K1, hread, h1⟩ := h.readChunk hr.inv hin hroom c
    obtain ⟨t, ht, hr1, -, -⟩ := hr.readChunk c
    obtain rfl := Except.ok.inj (ht.symm.trans hread)
    have hsub1 : ∀ x ∈ t.volume.inserted, x ∈ all := by
      intro x hx
      rcases hr.inv.inserted_readChunk hread x hx with hx | rfl
      · exact hsub x hx
      · exact hc
    obtain ⟨s2, K2, hrest, hr2, hsub2, h2⟩ := ih h1 hr1 hsub1 htrace
    refine ⟨s2, K2, readChunks_cons hread hrest, hr2, hsub2, ?_⟩
    simp only [traceReads, hread]
    rwa [List.append_assoc] at h2

/-- Between two runs the conf file holds the cache; before the first one there is none. -/
def Kept (s : State P.size) (reads : List ℤ) : Prop :=
  s.lcpConf = s.lpc.outputConf ∨ s.lcpConf = none ∧ reads = []

theorem ReadInv.sysIni {s : State P.size} {K : List Fp} {reads : List ℤ} (h : ReadInv s K reads)
    (hr : RunInv P .idle s) (hkept : Kept s reads) :
    ∃ s' K', Ddfs.sysIni P s = .ok s' ∧ RunInv P .running s' ∧
      s'.volume.inserted = s.volume.inserted ∧ ReadInv s' K' reads := by
  obtain ⟨s', hstart, hr', -, hins⟩ := hr.sysIni
  obtain ⟨v, hinit, -⟩ := hr.inv.containers.init (hr.saved rfl).flushed
  have hcache : ∃ lpc K', (LruCache.new lruSize).initConf s.lcpConf = some lpc ∧
      Warm lpc s.volume.inserted K' ∧ ∀ id ∈ reads, ∀ x, s.index.get x = some id → x ∈ K' := by
    rcases hkept with hconf | ⟨hconf, hnil⟩
    · obtain ⟨conf, lpc, hout, hload, hwarm⟩ := h.warm.restart
      rw [hconf, hout]
      exact ⟨lpc, K.reverse, hload, hwarm,
        fun id hid x hx => List.mem_reverse.mpr (h.cached id hid x hx)⟩
    · rw [hconf, hnil]
      exact ⟨_, [], rfl, Warm.new _, fun id hid => absurd hid List.not_mem_nil⟩
  obtain ⟨lpc, K', hload, hwarm, hcached⟩ := hcache
  have hstate : Ddfs.sysIni P s = .ok { s with
      blm := bloomInitConf (bloomInit P.size) s.bloomConf
      cmr := ⟨s.cmr.nowId, 0, []⟩, volume := v, lpc := lpc
      indexAccess := 0, loadingAccess := 0, updateAccess := 0 } := by
    simp only [Ddfs.sysIni, hinit, hload, orCrash, bind, Except.bind]
  obtain rfl := Except.ok.inj (hstate.symm.trans hstart)
  exact ⟨_, K', hstart, hr', hins, hwarm.mono fun x hx => hins ▸ hx, hcached, h.below, h.once⟩

theorem ReadInv.finishRun {s : State P.size} {K : List Fp} {reads : List ℤ}
    (h : ReadInv s K reads) (hr : RunInv P .running s) :
    ∃ s', Ddfs.finishRun P s = .ok s' ∧ RunInv P .idle s' ∧
      s'.volume.inserted = s.volume.inserted ∧ ReadInv s' K reads ∧ Kept s' reads := by
  obtain ⟨s', hend, hr', -, hins⟩ := hr.finishRun
  obtain ⟨conf, lpc, hout, -, -⟩ := h.warm.restart
  have hstate : Ddfs.finishRun P s = .ok { s with
      cmr := (s.cmr.pocessw (P.stale s.cmr.nowId) s.volume).2.1
      volume := (s.cmr.pocessw (P.stale s.cmr.nowId) s.volume).2.2
      bloomConf := some (bloomConfOut s.blm), lcpConf := some conf
      updates := s.updates + s.updateAccess } := by
    simp only [Ddfs.finishRun, hout, orCrash, bind, Except.bind]
  obtain rfl := Except.ok.inj (hstate.symm.trans hend)
  have hnext := s.cmr.nowId_le_pocessw s.volume (P.stale s.cmr.nowId)
  have hbelow : ∀ id ∈ reads, 0 ≤ id ∧
      id < (s.cmr.pocessw (P.stale s.cmr.nowId) s.volume).2.1.nowId :=
    fun id hid => ⟨(h.below id hid).1, lt_of_lt_of_le (h.below id hid).2 hnext⟩
  exact ⟨_, hend, hr', hins, ⟨h.warm.mono fun x hx => hins ▸ hx, h.cached, hbelow, h.once⟩,
    Or.inl hout.symm⟩

theorem ReadInv.ddfs {all : List Fp} (hall : Fits all) {s : State P.size} {K : List Fp}
    {reads : List ℤ} (h : ReadInv s K reads) (hr : RunInv P .idle s) (hkept : Kept s reads)
    (hsub : ∀ x ∈ s.volume.inserted, x ∈ all) (trace : List Chunk)
    (htrace : ∀ c ∈ trace, c.hash ∈ all) :
    ∃ s' K', Ddfs.ddfs P s trace = .ok s' ∧ RunInv P .idle s' ∧
      (∀ x ∈ s'.volume.inserted, x ∈ all) ∧ ReadInv s' K' (reads ++ runReads P s trace) ∧
      Kept s' (reads ++ runReads P s trace) := by
  obtain ⟨s1, K1, hstart, hr1, hins1, h1⟩ := h.sysIni hr hkept
  obtain ⟨s2, K2, hread, hr2, hsub2, h2⟩ :=
    h1.readChunks hall hr1 (fun x hx => hsub x (hins1 ▸ hx)) trace htrace
  obtain ⟨s3, hend, hr3, hins3, h3, hkept3⟩ := h2.finishRun hr2
  have hreads : runReads P s trace = traceReads P s1 trace := by simp only [runReads, hstart]
  rw [hreads]
  refine ⟨s3, K2, ?_, hr3, fun x hx => hsub2 x (hins3 ▸ hx), h3, hkept3⟩
  simp only [Ddfs.ddfs, hstart, hread, hend, bind, Except.bind]

theorem ReadInv.runs {all : List Fp} (hall : Fits all) {s : State P.size} {K : List Fp}
    {reads : List ℤ} (h : ReadInv s K reads) (hr : RunInv P .idle s) (hkept : Kept s reads)
    (hsub : ∀ x ∈ s.volume.inserted, x ∈ all) (traces : List (List Chunk))
    (htraces : ∀ c ∈ traces.flatten, c.hash ∈ all) :
    ∃ s' K', traces.foldlM (Ddfs.ddfs P) s = .ok s' ∧
      ReadInv s' K' (reads ++ fileReads P s traces) := by
  induction traces generalizing s K reads with
  | nil => exact ⟨s, K, rfl, by rwa [fileReads, List.append_nil]⟩
  | cons trace traces ih =>
    obtain ⟨htrace, htraces⟩ := List.forall_mem_append.mp htraces
    obtain ⟨s1, K1, hrun, hr1, hsub1, h1, hkept1⟩ := h.ddfs hall hr hkept hsub trace htrace
    obtain ⟨s2, K2, hrest, h2⟩ := ih h1 hr1 hkept1 hsub1 htraces
    refine ⟨s2, K2, ?_, ?_⟩
    · simp only [List.foldlM_cons, hrun, bind, Except.bind]
      exact hrest
    · simp only [fileReads, hrun]
      rwa [List.append_assoc] at h2

/-- While the distinct fingerprints fit into the cache, no container file is read twice,
within a run or across restarts; at most one read for each container written. -/
theorem container_files_read_once (P : Params) (traces : List (List Chunk))
    (hintact : Intact (traces.flatten.map Chunk.hash))
    (hroom : (traces.flatten.map Chunk.hash).eraseDups.length ≤ lruSize) :
    ∃ s, ddfsRuns P traces = .ok s ∧ (fileReads P (State.initial P.size) traces).Nodup ∧
      (∀ id ∈ fileReads P (State.initial P.size) traces, id ∈ s.volume.written.map Prod.fst) ∧
      (fileReads P (State.initial P.size) traces).length ≤ (Store.runs traces).containers.length := by
  have h0 : ReadInv (State.initial P.size) [] [] :=
    ⟨Warm.new _, fun id hid => absurd hid List.not_mem_nil,
      fun id hid => absurd hid List.not_mem_nil, List.nodup_nil⟩
  obtain ⟨s, K, hrun, h⟩ := h0.runs ⟨hintact, hroom⟩ runInv_initial (Or.inr ⟨rfl, rfl⟩)
    (fun x hx => absurd hx List.not_mem_nil) traces
    (fun c hc => List.mem_map.mpr ⟨c, hc, rfl⟩)
  obtain ⟨t, hrun', -, href⟩ := refines_runs P traces (unambiguous_of_intact hintact)
  obtain rfl := Except.ok.inj (hrun'.symm.trans hrun)
  rw [List.nil_append] at h
  have hwritten : ∀ id ∈ fileReads P (State.initial P.size) traces,
      id ∈ t.volume.written.map Prod.fst := by
    intro id hid
    obtain ⟨h0, hlt⟩ := h.below id hid
    obtain ⟨n, rfl⟩ := Int.eq_ofNat_of_zero_le h0
    rw [href.next] at hlt
    rw [href.written, List.mem_map]
    exact ⟨_, List.mem_mapIdx.mpr ⟨n, by exact_mod_cast hlt, rfl⟩, rfl⟩
  have hlen : t.volume.written.length = (Store.runs traces).containers.length := by
    rw [href.written, List.length_mapIdx]
  refine ⟨t, hrun', h.once, hwritten, ?_⟩
  rw [← hlen, ← List.length_map (f := Prod.fst)]
  exact h.once.length_le_of_subset hwritten

end System

/-- The second run reads the container file for its first chunk only. -/
theorem container_files_read_once_two : ∃ s,
    ddfsRuns smallParams [[⟨.filled 1, 8192⟩], [⟨.filled 1, 8192⟩, ⟨.filled 1, 8192⟩]] = .ok s ∧
    fileReads smallParams (State.initial smallParams.size)
      [[⟨.filled 1, 8192⟩], [⟨.filled 1, 8192⟩, ⟨.filled 1, 8192⟩]] = [0] ∧
    (0 : ℤ) ∈ s.volume.written.map Prod.fst := by
  have hreads : fileReads smallParams (State.initial smallParams.size)
      [[⟨.filled 1, 8192⟩], [⟨.filled 1, 8192⟩, ⟨.filled 1, 8192⟩]] = [0] := by
    decide +kernel
  obtain ⟨s, hrun, -, hwritten, -⟩ := container_files_read_once smallParams
    [[⟨.filled 1, 8192⟩], [⟨.filled 1, 8192⟩, ⟨.filled 1, 8192⟩]]
    (by unfold Intact ContainerManager.NoInnerNul; decide) (by decide)
  exact ⟨s, hrun, hreads, hwritten 0 (by rw [hreads]; exact List.mem_singleton_self _)⟩

end FreqAnalysis.Ddfs
