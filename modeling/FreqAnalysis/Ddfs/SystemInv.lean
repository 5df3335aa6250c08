import FreqAnalysis.Ddfs.System

/-!
# What holds across runs of the prototype

Three invariants are carried through every step of a run and through restarts:
the index points into the containers, the index holds exactly the inserted
fingerprints and the Bloom filter holds them too, and every cached key has the
C string of an inserted fingerprint. The third one is all that is true of the
cache, because `strncmp` compares its keys and a container read back from disk
holds nothing but C strings.
-/

namespace FreqAnalysis.Ddfs
open Base

/-! ### Index and containers -/

def Keeps (v v' : Volume) : Prop :=
  ∀ name, name ≠ mainfest → ∀ text, v.files name = some text → v'.files name = some text

theorem Keeps.refl (v : Volume) : Keeps v v := fun _ _ _ h => h

structure ContainerInv (stale : ℤ → ℕ → ℕ → Byte) (cm : ContainerManager) (v : Volume)
    (index : SortedMap Fp ℤ) : Prop where
  nowId_nonneg : 0 ≤ cm.nowId
  saved : v.files mainfest = some (decimal cm.nowId ++ ['\n']) ∨
    v.files mainfest = none ∧ cm.nowId = 0
  written : ∀ id l, (id, l) ∈ v.written → 0 ≤ id ∧ id < cm.nowId ∧
    v.files (decimal id) = some (ContainerManager.containerText (stale id) l)
  fresh : ∀ id, cm.nowId ≤ id → v.files (decimal id) = none
  located : ∀ h id, index.get h = some id →
    (∃ l, (id, l) ∈ v.written ∧ h ∈ l) ∨ id = cm.nowId ∧ h ∈ cm.tmp
  written_inserted : ∀ id l, (id, l) ∈ v.written → ∀ h ∈ l, h ∈ v.inserted
  tmp_inserted : ∀ h ∈ cm.tmp, h ∈ v.inserted

namespace ContainerInv

variable {stale : ℤ → ℕ → ℕ → Byte} {cm : ContainerManager} {v : Volume}
  {index : SortedMap Fp ℤ}

theorem decimal_ne {a b : ℤ} (ha : 0 ≤ a) (hb : 0 ≤ b) (hab : a ≠ b) : decimal a ≠ decimal b := by
  obtain ⟨m, rfl⟩ := Int.eq_ofNat_of_zero_le ha
  obtain ⟨n, rfl⟩ := Int.eq_ofNat_of_zero_le hb
  intro h
  exact hab (congrArg Int.ofNat (decimal_injective m n h))

theorem decimal_ne_mainfest {a : ℤ} (ha : 0 ≤ a) : decimal a ≠ mainfest := by
  obtain ⟨n, rfl⟩ := Int.eq_ofNat_of_zero_le ha
  exact ContainerManager.decimal_ne_mainfest n

theorem written_flush (h : ContainerInv stale cm v index) (text : List Char) :
    ∀ id l, (id, l) ∈ v.written ++ [(cm.nowId, cm.tmp)] → 0 ≤ id ∧ id < cm.nowId + 1 ∧
      Function.update (Function.update v.files (decimal cm.nowId)
          (some (ContainerManager.containerText (stale cm.nowId) cm.tmp)))
        mainfest (some text) (decimal id)
        = some (ContainerManager.containerText (stale id) l) := by
  have h0 := h.nowId_nonneg
  intro id l hmem
  rcases List.mem_append.mp hmem with hold | hnew
  · obtain ⟨hid, hlt, hfile⟩ := h.written id l hold
    have hne : decimal id ≠ decimal cm.nowId := decimal_ne hid h0 (by omega)
    refine ⟨hid, by omega, ?_⟩
    rw [Function.update_of_ne (decimal_ne_mainfest hid), Function.update_of_ne hne]
    exact hfile
  · obtain ⟨rfl, rfl⟩ := Prod.mk.inj (List.mem_singleton.mp hnew)
    refine ⟨h0, by omega, ?_⟩
    rw [Function.update_of_ne (decimal_ne_mainfest h0), Function.update_self]

theorem keeps_flush (h : ContainerInv stale cm v index) (text main : List Char)
    (written : List (ℤ × List Fp)) :
    Keeps v ⟨Function.update (Function.update v.files (decimal cm.nowId) (some text)) mainfest
      (some main), v.inserted, written⟩ := by
  intro name hmain old hold
  -- the file of the current container does not exist yet
  have hne : name ≠ decimal cm.nowId := by
    intro heq
    rw [heq, h.fresh cm.nowId le_rfl] at hold
    cases hold
  simp only [Function.update_of_ne hmain, Function.update_of_ne hne]
  exact hold

theorem pocessw (h : ContainerInv stale cm v index) :
    ContainerInv stale (cm.pocessw (stale cm.nowId) v).2.1 (cm.pocessw (stale cm.nowId) v).2.2
      index ∧
    (cm.pocessw (stale cm.nowId) v).2.1.tmp = [] ∧
    (cm.pocessw (stale cm.nowId) v).2.2.inserted = v.inserted ∧
    Keeps v (cm.pocessw (stale cm.nowId) v).2.2 := by
  by_cases hnil : cm.tmp = []
  · have hsame : cm.pocessw (stale cm.nowId) v = (false, cm, v) := by
      simp [ContainerManager.pocessw, hnil]
    rw [hsame]
    exact ⟨h, hnil, rfl, Keeps.refl v⟩
  have h0 := h.nowId_nonneg
  have hname : ContainerManager.fileName cm.nowId = decimal cm.nowId := by
    obtain ⟨n, hn⟩ := Int.eq_ofNat_of_zero_le h0
    rw [hn]
    exact ContainerManager.fileName_natCast n
  have hnext : 0 ≤ cm.nowId + 1 := by omega
  rw [ContainerManager.pocessw_of_ne_nil (stale cm.nowId) cm v hnil, hname]
  refine ⟨⟨hnext, Or.inl ?_, h.written_flush _, ?_, ?_, ?_, ?_⟩, rfl, rfl, h.keeps_flush _ _ _⟩
  · simp only [Function.update_self]
  · intro id hid
    simp only at hid
    have hpos : 0 ≤ id := by omega
    have hne : decimal id ≠ decimal cm.nowId := decimal_ne hpos h0 (by omega)
    simp only [Function.update_of_ne (decimal_ne_mainfest hpos), Function.update_of_ne hne]
    exact h.fresh id (by omega)
  · intro x id hget
    apply Or.inl
    rcases h.located x id hget with ⟨l, hl, hx⟩ | ⟨rfl, hx⟩
    · exact ⟨l, List.mem_append_left _ hl, hx⟩
    · exact ⟨cm.tmp, by simp, hx⟩
  · intro id l hmem
    rcases List.mem_append.mp hmem with hold | hnew
    · exact h.written_inserted id l hold
    · obtain ⟨rfl, rfl⟩ := Prod.mk.inj (List.mem_singleton.mp hnew)
      exact h.tmp_inserted
  · intro x hx
    exact absurd hx List.not_mem_nil

theorem push (h : ContainerInv stale cm v index) (str : Fp) (size : ℤ) :
    ContainerInv stale { cm with nowSize := size, tmp := cm.tmp ++ [str] }
      { v with inserted := v.inserted ++ [str] } (index.put str cm.nowId) := by
  refine ⟨h.nowId_nonneg, h.saved, h.written, h.fresh, ?_, ?_, ?_⟩
  · intro x id hget
    by_cases hx : x = str
    · rw [hx, SortedMap.get_put_self, Option.some.injEq] at hget
      exact Or.inr ⟨hget.symm, by simp [hx]⟩
    · rw [SortedMap.get_put_ne _ _ _ _ hx] at hget
      rcases h.located x id hget with hw | ⟨hid, htmp⟩
      · exact Or.inl hw
      · exact Or.inr ⟨hid, List.mem_append_left _ htmp⟩
  · intro id l hmem x hx
    exact List.mem_append_left _ (h.written_inserted id l hmem x hx)
  · intro x hx
    rcases List.mem_append.mp hx with hx | hx
    · exact List.mem_append_left _ (h.tmp_inserted x hx)
    · exact List.mem_append_right _ hx

/-- `insert` may flush first; the number indexed is the one read afterwards. -/
theorem insert (h : ContainerInv stale cm v index) (str : Fp) (size : ℤ) :
    ContainerInv stale (cm.insert (stale cm.nowId) v str size).1
      (cm.insert (stale cm.nowId) v str size).2
      (index.put str (cm.insert (stale cm.nowId) v str size).1.nowId) ∧
    (cm.insert (stale cm.nowId) v str size).2.inserted = v.inserted ++ [str] ∧
    Keeps v (cm.insert (stale cm.nowId) v str size).2 := by
  unfold ContainerManager.insert
  by_cases hfull : cInt (cm.nowSize + size) > maxSize
  · obtain ⟨hinv, -, hins, hkeep⟩ := h.pocessw
    simp only [if_pos hfull]
    exact ⟨hinv.push str _, by rw [hins], hkeep⟩
  · simp only [if_neg hfull]
    exact ⟨h.push str _, trivial, Keeps.refl v⟩

theorem init (h : ContainerInv stale cm v index) (hnil : cm.tmp = []) :
    ∃ v', ContainerManager.init v = some (⟨cm.nowId, 0, []⟩, v') ∧
      ContainerInv stale ⟨cm.nowId, 0, []⟩ v' index ∧ v'.inserted = v.inserted ∧ Keeps v v' := by
  have hlocated : ∀ x id, index.get x = some id →
      (∃ l, (id, l) ∈ v.written ∧ x ∈ l) ∨ id = cm.nowId ∧ x ∈ ([] : List Fp) := by
    intro x id hget
    have := h.located x id hget
    rwa [hnil] at this
  have hno : ∀ x ∈ ([] : List Fp), x ∈ v.inserted := fun x hx => absurd hx List.not_mem_nil
  rcases h.saved with htext | ⟨hnone, hzero⟩
  · refine ⟨v, ?_, ⟨h.nowId_nonneg, Or.inl htext, h.written, h.fresh, hlocated,
      h.written_inserted, hno⟩, rfl, Keeps.refl v⟩
    obtain ⟨n, hn⟩ := Int.eq_ofNat_of_zero_le h.nowId_nonneg
    have hscan : scanDecimal (decimal cm.nowId ++ ['\n']) = some cm.nowId := by
      rw [hn]
      exact scanDecimal_decimal n ['\n'] (by decide)
    simp only [ContainerManager.init, htext, hscan, Option.map_some]
  · have hfile : ∀ id : ℤ, 0 ≤ id →
        (v.write mainfest (decimal 0 ++ ['\n'])).files (decimal id) = v.files (decimal id) := by
      intro id hid
      simp only [Volume.write, Function.update_of_ne (decimal_ne_mainfest hid)]
    refine ⟨v.write mainfest (decimal 0 ++ ['\n']), ?_, ⟨h.nowId_nonneg, Or.inl ?_, ?_, ?_,
      hlocated, h.written_inserted, hno⟩, rfl, ?_⟩
    · simp only [ContainerManager.init, hnone, hzero]
    · simp only [Volume.write, Function.update_self, hzero]
    · intro id l hmem
      obtain ⟨hid, hlt, htext⟩ := h.written id l hmem
      exact ⟨hid, hlt, (hfile id hid).trans htext⟩
    · intro id hid
      have := h.nowId_nonneg
      rw [hfile id (by simp only at hid; omega)]
      exact h.fresh id hid
    · intro name hmain text htext
      simp only [Volume.write, Function.update_of_ne hmain]
      exact htext

/-- `loadtonode` finds the container of every indexed fingerprint, and returns
keys with the C strings of inserted fingerprints. -/
theorem loadtonode (h : ContainerInv stale cm v index) (x : Fp) (id : ℤ)
    (hget : index.get x = some id) :
    ∃ conti, cm.loadtonode v id = (true, conti) ∧
      ∀ k ∈ conti, ∃ y ∈ v.inserted, cStr y.val = cStr k.val := by
  rcases h.located x id hget with ⟨l, hl, -⟩ | ⟨rfl, -⟩
  · obtain ⟨-, -, hfile⟩ := h.written id l hl
    refine ⟨_, ContainerManager.loadtonode_of_text (stale id) cm v id l hfile, ?_⟩
    intro k hk
    obtain ⟨i, hi, rfl⟩ := List.mem_mapIdx.mp hk
    refine ⟨l[i], h.written_inserted id l hl _ (List.getElem_mem hi), ?_⟩
    rw [ContainerManager.ofText_tempBytes, ContainerManager.cStr_tempBytes]
  · refine ⟨cm.tmp, ?_, fun k hk => ⟨k, h.tmp_inserted k hk, rfl⟩⟩
    simp [ContainerManager.loadtonode, h.fresh cm.nowId le_rfl]

theorem nonneg (h : ContainerInv stale cm v index) (x : Fp) (id : ℤ)
    (hget : index.get x = some id) : 0 ≤ id := by
  rcases h.located x id hget with ⟨l, hl, -⟩ | ⟨rfl, -⟩
  · exact (h.written id l hl).1
  · exact h.nowId_nonneg

end ContainerInv

/-! ### The cache -/

def CachedFrom (lpc : LruCache) (stored : List Fp) : Prop :=
  lpc.maxCacheSize = lruSize ∧
    ∃ ks, Caches lpc ks ∧ ∀ k ∈ ks, ∃ h ∈ stored, cStr h.val = cStr k.val

namespace CachedFrom

variable {lpc : LruCache} {stored : List Fp}

theorem new (stored : List Fp) : CachedFrom (LruCache.new lruSize) stored :=
  ⟨rfl, [], caches_new lruSize (Int.natCast_nonneg _), fun _ hk => absurd hk List.not_mem_nil⟩

theorem mono {stored' : List Fp} (h : CachedFrom lpc stored) (hsub : ∀ x ∈ stored, x ∈ stored') :
    CachedFrom lpc stored' := by
  obtain ⟨hmax, ks, hc, hks⟩ := h
  refine ⟨hmax, ks, hc, ?_⟩
  intro k hk
  obtain ⟨x, hx, heq⟩ := hks k hk
  exact ⟨x, hsub x hx, heq⟩

theorem find (h : CachedFrom lpc stored) (str : Fp) :
    ∃ hit lpc', lpc.find str = some (hit, lpc') ∧ CachedFrom lpc' stored ∧
      (hit = true → ∃ x ∈ stored, cStr x.val = cStr str.val) := by
  obtain ⟨hmax, ks, hc, hks⟩ := h
  obtain ⟨lpc', hfind, hmax', hc'⟩ := hc.find str
  have hhit : (lruFind ks str).1 = true → ∃ x ∈ stored, cStr x.val = cStr str.val := by
    intro hit
    obtain ⟨k, hk, heq⟩ := lruFind_hit ks str hit
    obtain ⟨x, hx, hxk⟩ := hks k hk
    exact ⟨x, hx, hxk.trans heq⟩
  refine ⟨_, lpc', hfind, ⟨hmax'.trans hmax, _, hc', ?_⟩, hhit⟩
  intro k hk
  rcases mem_lruFind ks str k hk with hold | ⟨rfl, hit⟩
  · exact hks k hold
  · exact hhit hit

theorem putdata (h : CachedFrom lpc stored) (str : Fp)
    (hstr : ∃ x ∈ stored, cStr x.val = cStr str.val) :
    ∃ r lpc', lpc.putdata str = some (r, lpc') ∧ CachedFrom lpc' stored := by
  obtain ⟨hmax, ks, hc, hks⟩ := h
  obtain ⟨lpc', hput, hmax', hc'⟩ := hc.putdata str
  refine ⟨_, lpc', hput, hmax'.trans hmax, _, hc', ?_⟩
  intro k hk
  rcases mem_lruPut lpc.maxCacheSize ks str k hk with hold | rfl
  · exact hks k hold
  · exact hstr

theorem restart (h : CachedFrom lpc stored) :
    ∃ conf lpc', lpc.outputConf = some conf ∧
      (LruCache.new lruSize).initConf (some conf) = some lpc' ∧ CachedFrom lpc' stored := by
  obtain ⟨hmax, ks, hc, hks⟩ := h
  obtain ⟨lpc', hre, hmax', hc'⟩ := hc.restart hmax
  obtain ⟨conf, hout, hload⟩ := Option.bind_eq_some_iff.mp hre
  refine ⟨conf, lpc', hout, hload, hmax', _, hc', ?_⟩
  intro k hk
  exact hks k (List.mem_reverse.mp hk)

end CachedFrom

/-! ### One step -/

section System

variable (P : Params)

structure Inv (s : State P.size) : Prop where
  containers : ContainerInv P.stale s.cmr s.volume s.index
  indexed : ∀ h, h ∈ s.index.keys ↔ h ∈ s.volume.inserted
  once : s.volume.inserted.Nodup
  puts : ∀ r ∈ s.putResults, r = 1
  ready : s.blm.ready = true
  held : ∀ h ∈ s.volume.inserted, s.blm.Holds P.hash h.val
  cached : CachedFrom s.lpc s.volume.inserted

variable {P}

theorem Inv.withLpc {s : State P.size} (h : Inv P s) (lpc : LruCache) (n l : ℕ)
    (hc : CachedFrom lpc s.volume.inserted) :
    Inv P { s with lpc := lpc, indexAccess := n, loadingAccess := l } :=
  ⟨h.containers, h.indexed, h.once, h.puts, h.ready, h.held, hc⟩

structure Grows (s s' : State P.size) : Prop where
  keeps : Keeps s.volume s'.volume
  inserted : ∀ x ∈ s.volume.inserted, x ∈ s'.volume.inserted
  counted : s'.updates + s'.updateAccess + s.index.entries.length
    = s.updates + s.updateAccess + s'.index.entries.length

theorem Inv.punique {s : State P.size} (h : Inv P s) (key : Fp) (size : ℤ)
    (hnew : key ∉ s.index.keys) :
    Inv P (punique P s key size) ∧ Grows s (punique P s key size) ∧
      key ∈ (Ddfs.punique P s key size).volume.inserted := by
  obtain ⟨hcont, hins, hkeep⟩ := h.containers.insert key size
  have hget : s.index.get key = none := (s.index.get_eq_none_iff key).mpr hnew
  have hfresh : key ∉ s.volume.inserted := fun hmem => hnew ((h.indexed key).mpr hmem)
  have hstate : Ddfs.punique P s key size = { s with
      blm := bloomAdd P.hash s.blm key.val
      cmr := (s.cmr.insert (P.stale s.cmr.nowId) s.volume key size).1
      volume := (s.cmr.insert (P.stale s.cmr.nowId) s.volume key size).2
      index := s.index.put key (s.cmr.insert (P.stale s.cmr.nowId) s.volume key size).1.nowId
      updateAccess := s.updateAccess + 1
      putResults := s.putResults ++ [1] } := by
    simp only [Ddfs.punique, fpInsert, hget]
  rw [hstate]
  refine ⟨⟨hcont, ?_, ?_, ?_, ?_, ?_, ?_⟩, ⟨hkeep, ?_, ?_⟩, ?_⟩
  · intro x
    rw [SortedMap.mem_keys_put, hins, List.mem_append, h.indexed x, List.mem_singleton, or_comm]
  · rw [hins, ← List.concat_eq_append]
    exact h.once.concat hfresh
  · intro r hr
    rcases List.mem_append.mp hr with hr | hr
    · exact h.puts r hr
    · exact List.mem_singleton.mp hr
  · exact (bloomAdd_ready P.hash s.blm key.val).trans h.ready
  · intro x hx
    rw [hins] at hx
    rcases List.mem_append.mp hx with hx | hx
    · exact holds_bloomAdd_of_holds P.hash s.blm key.val x.val h.ready (h.held x hx)
    · rw [List.mem_singleton.mp hx]
      exact holds_bloomAdd_self P.hash s.blm key.val h.ready
  · exact h.cached.mono (fun x hx => by rw [hins]; exact List.mem_append_left _ hx)
  · intro x hx
    rw [hins]
    exact List.mem_append_left _ hx
  · simp only [SortedMap.length_put_new _ _ _ hnew]
    omega
  · rw [hins]
    simp

theorem Inv.loadCache {s : State P.size} (h : Inv P s) (conti : List Fp)
    (hconti : ∀ k ∈ conti, ∃ y ∈ s.volume.inserted, cStr y.val = cStr k.val) :
    ∃ lpc l, loadCache P s conti = .ok { s with lpc := lpc, loadingAccess := l } ∧
      CachedFrom lpc s.volume.inserted := by
  induction conti generalizing s with
  | nil => exact ⟨s.lpc, s.loadingAccess, rfl, h.cached⟩
  | cons k conti ih =>
    obtain ⟨r, lpc, hput, hc⟩ := h.cached.putdata k (hconti k (List.mem_cons_self ..))
    obtain ⟨lpc', l, hload, hc'⟩ := ih (h.withLpc lpc s.indexAccess (s.loadingAccess + 1) hc)
      (fun x hx => hconti x (List.mem_cons_of_mem _ hx))
    refine ⟨lpc', l, ?_, hc'⟩
    simp only [Ddfs.loadCache, List.foldlM_cons, hput, orCrash] at hload ⊢
    exact hload

theorem readChunk_hit {s : State P.size} {c : Chunk} {lpc : LruCache}
    (hfind : s.lpc.find c.hash = some (true, lpc)) :
    readChunk P s c = .ok { s with lpc := lpc } := by
  simp only [readChunk, hfind, orCrash]
  rfl

theorem readChunk_unique {s : State P.size} {c : Chunk} {lpc : LruCache}
    (hfind : s.lpc.find c.hash = some (false, lpc)) (hnew : s.index.get c.hash = none) :
    ∃ n, readChunk P s c = .ok (punique P { s with lpc := lpc, indexAccess := n } c.hash c.size) := by
  have hfp : fpFind s.index c.hash = -1 := by simp [fpFind, hnew]
  by_cases hb : bloomCheck P.hash s.blm c.hash.val = 0
  · refine ⟨s.indexAccess, ?_⟩
    simp only [readChunk, hfind, orCrash, bind, Except.bind, Bool.false_eq_true, if_false, hb,
      if_true]
  · refine ⟨s.indexAccess + 1, ?_⟩
    simp only [readChunk, hfind, orCrash, bind, Except.bind, Bool.false_eq_true, if_false, hb,
      hfp, if_true]

theorem readChunk_dup {s : State P.size} (h : Inv P s) {c : Chunk} {lpc : LruCache} (id : ℤ)
    (conti : List Fp) (hfind : s.lpc.find c.hash = some (false, lpc))
    (hget : s.index.get c.hash = some id) (hload : s.cmr.loadtonode s.volume id = (true, conti)) :
    readChunk P s c
      = loadCache P { s with lpc := lpc, indexAccess := s.indexAccess + 1 } conti := by
  have hkey : c.hash ∈ s.index.keys := (s.index.mem_keys_iff c.hash).mpr ⟨id, hget⟩
  have hb : ¬ bloomCheck P.hash s.blm c.hash.val = 0 := by
    rw [bloomCheck_eq_zero_iff P.hash s.blm c.hash.val h.ready]
    exact fun hn => hn (h.held c.hash ((h.indexed c.hash).mp hkey))
  have hfp : fpFind s.index c.hash = id := by simp [fpFind, hget]
  have hid : ¬ id = -1 := by
    have := h.containers.nonneg c.hash id hget
    omega
  simp only [readChunk, hfind, orCrash, bind, Except.bind, Bool.false_eq_true, if_false, hb, hfp,
    hid, hload, Bool.true_eq_false]

/-- One chunk: no fault, and the fingerprint is stored unless it has the C
string of one that was. -/
theorem Inv.readChunk {s : State P.size} (h : Inv P s) (c : Chunk) :
    ∃ s', readChunk P s c = .ok s' ∧ Inv P s' ∧ Grows s s' ∧
      (c.hash ∈ s'.volume.inserted ∨
        ∃ x ∈ s.volume.inserted, cStr x.val = cStr c.hash.val) := by
  obtain ⟨hit, lpc, hfind, hc, hstored⟩ := h.cached.find c.hash
  cases hit with
  | true =>
    exact ⟨_, readChunk_hit hfind, h.withLpc lpc s.indexAccess s.loadingAccess hc,
      ⟨Keeps.refl _, fun _ hx => hx, rfl⟩, Or.inr (hstored rfl)⟩
  | false =>
    cases hget : s.index.get c.hash with
    | none =>
      obtain ⟨n, hread⟩ := readChunk_unique (P := P) hfind hget
      obtain ⟨hinv, hgrow, hmem⟩ := (h.withLpc lpc n s.loadingAccess hc).punique c.hash c.size
        ((s.index.get_eq_none_iff c.hash).mp hget)
      exact ⟨_, hread, hinv, ⟨hgrow.keeps, hgrow.inserted, hgrow.counted⟩, Or.inl hmem⟩
    | some id =>
      obtain ⟨conti, hload, hconti⟩ := h.containers.loadtonode c.hash id hget
      have hw := h.withLpc lpc (s.indexAccess + 1) s.loadingAccess hc
      obtain ⟨lpc', l, hcache, hc'⟩ := hw.loadCache conti hconti
      refine ⟨_, (readChunk_dup h id conti hfind hget hload).trans hcache,
        hw.withLpc lpc' (s.indexAccess + 1) l hc', ⟨Keeps.refl _, fun _ hx => hx, rfl⟩, Or.inl ?_⟩
      exact (h.indexed c.hash).mp ((s.index.mem_keys_iff c.hash).mpr ⟨id, hget⟩)

/-! ### Runs -/

variable (P)

def State.accesses {z : BloomSize} (s : State z) : Phase → ℕ
  | .idle => s.updates
  | .running => s.updates + s.updateAccess

/-- Between two runs nothing is in memory and the conf files are current. -/
structure Saved (s : State P.size) : Prop where
  flushed : s.cmr.tmp = []
  bloom : s.bloomConf = some (bloomConfOut s.blm) ∨ s.bloomConf = none ∧ s.volume.inserted = []
  cache : s.lcpConf = s.lpc.outputConf ∨ s.lcpConf = none

structure RunInv (ph : Phase) (s : State P.size) : Prop where
  inv : Inv P s
  counted : s.accesses ph = s.index.entries.length
  saved : ph = .idle → Saved P s

variable {P}

theorem runInv_initial : RunInv P .idle (State.initial P.size) := by
  refine ⟨⟨⟨le_rfl, Or.inr ⟨rfl, rfl⟩, ?_, fun _ _ => rfl, ?_, ?_, ?_⟩, ?_, List.nodup_nil, ?_,
    rfl, ?_, CachedFrom.new _⟩, rfl, fun _ => ⟨rfl, Or.inr ⟨rfl, rfl⟩, Or.inr rfl⟩⟩
  · intro id l hl
    exact absurd hl List.not_mem_nil
  · intro x id hget
    cases hget
  · intro id l hl
    exact absurd hl List.not_mem_nil
  · intro x hx
    exact absurd hx List.not_mem_nil
  · intro x
    exact Iff.rfl
  · intro r hr
    exact absurd hr List.not_mem_nil
  · intro x hx
    exact absurd hx List.not_mem_nil

theorem RunInv.sysIni {s : State P.size} (h : RunInv P .idle s) :
    ∃ s', sysIni P s = .ok s' ∧ RunInv P .running s' ∧ Keeps s.volume s'.volume ∧
      s'.volume.inserted = s.volume.inserted := by
  have hs := h.saved rfl
  obtain ⟨v, hinit, hcont, hins, hkeep⟩ := h.inv.containers.init hs.flushed
  have hcache : ∃ lpc, (LruCache.new lruSize).initConf s.lcpConf = some lpc ∧
      CachedFrom lpc s.volume.inserted := by
    rcases hs.cache with hconf | hconf
    · obtain ⟨conf, lpc, hout, hload, hc⟩ := h.inv.cached.restart
      rw [hconf, hout]
      exact ⟨lpc, hload, hc⟩
    · rw [hconf]
      exact ⟨_, rfl, CachedFrom.new _⟩
  obtain ⟨lpc, hload, hc⟩ := hcache
  have hready : (bloomInitConf (bloomInit P.size) s.bloomConf).ready = true := by
    cases s.bloomConf <;> rfl
  have hheld : ∀ x ∈ s.volume.inserted,
      (bloomInitConf (bloomInit P.size) s.bloomConf).Holds P.hash x.val := by
    intro x hx
    rcases hs.bloom with hconf | ⟨-, hnil⟩
    · intro i hi
      rw [hconf, bloomInitConf_bloomConfOut]
      exact h.inv.held x hx i hi
    · rw [hnil] at hx
      exact absurd hx List.not_mem_nil
  have hstart : Ddfs.sysIni P s = .ok { s with
      blm := bloomInitConf (bloomInit P.size) s.bloomConf
      cmr := ⟨s.cmr.nowId, 0, []⟩, volume := v, lpc := lpc
      indexAccess := 0, loadingAccess := 0, updateAccess := 0 } := by
    simp only [Ddfs.sysIni, hinit, hload, orCrash, bind, Except.bind]
  refine ⟨_, hstart, ⟨⟨hcont, ?_, ?_, h.inv.puts, hready, ?_, ?_⟩, h.counted, fun hph => ?_⟩,
    hkeep, hins⟩
  · rw [hins]
    exact h.inv.indexed
  · rw [hins]
    exact h.inv.once
  · rw [hins]
    exact hheld
  · rw [hins]
    exact hc
  · exact Phase.noConfusion hph

theorem RunInv.readChunk {s : State P.size} (h : RunInv P .running s) (c : Chunk) :
    ∃ s', readChunk P s c = .ok s' ∧ RunInv P .running s' ∧ Grows s s' ∧
      (c.hash ∈ s'.volume.inserted ∨
        ∃ x ∈ s.volume.inserted, cStr x.val = cStr c.hash.val) := by
  obtain ⟨s', hread, hinv, hgrow, hmem⟩ := h.inv.readChunk c
  have hc : s'.updates + s'.updateAccess = s'.index.entries.length := by
    have h1 : s.updates + s.updateAccess = s.index.entries.length := h.counted
    have h2 := hgrow.counted
    omega
  exact ⟨s', hread, ⟨hinv, hc, fun hph => Phase.noConfusion hph⟩, hgrow, hmem⟩

theorem RunInv.finishRun {s : State P.size} (h : RunInv P .running s) :
    ∃ s', finishRun P s = .ok s' ∧ RunInv P .idle s' ∧ Keeps s.volume s'.volume ∧
      s'.volume.inserted = s.volume.inserted := by
  obtain ⟨hcont, hnil, hins, hkeep⟩ := h.inv.containers.pocessw
  obtain ⟨conf, lpc, hout, -, -⟩ := h.inv.cached.restart
  have hend : Ddfs.finishRun P s = .ok { s with
      cmr := (s.cmr.pocessw (P.stale s.cmr.nowId) s.volume).2.1
      volume := (s.cmr.pocessw (P.stale s.cmr.nowId) s.volume).2.2
      bloomConf := some (bloomConfOut s.blm), lcpConf := some conf
      updates := s.updates + s.updateAccess } := by
    simp only [Ddfs.finishRun, hout, orCrash, bind, Except.bind]
  refine ⟨_, hend, ⟨⟨hcont, ?_, ?_, h.inv.puts, h.inv.ready, ?_, ?_⟩, h.counted,
    fun _ => ⟨hnil, Or.inl rfl, Or.inl hout.symm⟩⟩, hkeep, hins⟩
  · rw [hins]
    exact h.inv.indexed
  · rw [hins]
    exact h.inv.once
  · rw [hins]
    exact h.inv.held
  · rw [hins]
    exact h.inv.cached

variable {ok : State P.size → Chunk → Prop}

theorem RunInv.step {ph ph' : Phase} {s s' : State P.size} (h : RunInv P ph s)
    (hstep : Step P ok ph s ph' s') : RunInv P ph' s' ∧ Keeps s.volume s'.volume ∧
      ∀ x ∈ s.volume.inserted, x ∈ s'.volume.inserted := by
  cases hstep with
  | start heq =>
    obtain ⟨t, ht, hinv, hkeep, hins⟩ := h.sysIni
    obtain rfl : t = s' := Except.ok.inj (ht.symm.trans heq)
    exact ⟨hinv, hkeep, fun x hx => hins ▸ hx⟩
  | chunk c _ heq =>
    obtain ⟨t, ht, hinv, hgrow, -⟩ := h.readChunk c
    obtain rfl : t = s' := Except.ok.inj (ht.symm.trans heq)
    exact ⟨hinv, hgrow.keeps, hgrow.inserted⟩
  | finish heq =>
    obtain ⟨t, ht, hinv, hkeep, hins⟩ := h.finishRun
    obtain rfl : t = s' := Except.ok.inj (ht.symm.trans heq)
    exact ⟨hinv, hkeep, fun x hx => hins ▸ hx⟩

theorem Reachable.runInv {ph : Phase} {s : State P.size} (h : Reachable P ok ph s) :
    RunInv P ph s := by
  induction h with
  | initial => exact runInv_initial
  | step _ hstep ih => exact (ih.step hstep).1

end System
end FreqAnalysis.Ddfs
