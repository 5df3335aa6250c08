import FreqAnalysis.Base.SortedMap
import FreqAnalysis.Ddfs.Bloom
import FreqAnalysis.Ddfs.Container
import FreqAnalysis.Ddfs.LruConf

/-!
# The deduplication prototype (ddfs.cc, fp_index.cc)

A run of `ddfs` loads the Bloom filter, the container number and the cache from
the files of the run before (`sys_ini`), processes one chunk line after the
other, and writes the three back. Chunks whose fingerprint is found in the
cache, or in the index behind the Bloom filter, are duplicates; a duplicate
found through the index loads its whole container into the cache. LevelDB is a
map, and file operations succeed.
-/

namespace FreqAnalysis.Ddfs
open Base

/-! ### The fingerprint index -/

/-- `fpindex::insert`: -1 for a key that is present, 1 after a `Put`. -/
def fpInsert (db : SortedMap Fp ℤ) (str : Fp) (id : ℤ) : ℤ × SortedMap Fp ℤ :=
  match db.get str with
  | some _ => (-1, db)
  | none => (1, db.put str id)

def fpFind (db : SortedMap Fp ℤ) (str : Fp) : ℤ := (db.get str).getD (-1)

/-! ### State and steps -/

def lruSize : ℕ := 838608

/-- What the model is parametric in: the size of the Bloom filter, its hash
function, and the out-of-bounds bytes that `pocessw` reads while it writes
container `id`. -/
structure Params where
  size : BloomSize
  hash : List Byte → UInt32 → UInt32
  stale : ℤ → ℕ → ℕ → Byte

/-- The files, the globals of the process, and two records of what happened:
the results of `FPI.insert` in `punique`, and `update_access` summed over the
runs that ended. -/
structure State (z : BloomSize) where
  volume : Volume
  index : SortedMap Fp ℤ
  bloomConf : Option (List Char)
  lcpConf : Option (List Char)
  blm : Bloom z
  lpc : LruCache
  cmr : ContainerManager
  indexAccess : ℕ
  loadingAccess : ℕ
  updateAccess : ℕ
  putResults : List ℤ
  updates : ℕ

inductive Fault where
  /-- `printf("load failed\n"); exit(1);` -/
  | loadFailed
  /-- a failed assertion, or a null or dangling pointer -/
  | crash
  deriving DecidableEq

def orCrash {α : Type} : Option α → Except Fault α
  | some a => .ok a
  | none => .error .crash

def State.initial (z : BloomSize) : State z where
  volume := ⟨fun _ => none, [], []⟩
  index := SortedMap.empty
  bloomConf := none
  lcpConf := none
  blm := bloomInit z
  lpc := LruCache.new lruSize
  cmr := ⟨0, 0, []⟩
  indexAccess := 0
  loadingAccess := 0
  updateAccess := 0
  putResults := []
  updates := 0

section Steps

variable (P : Params)

def sysIni (s : State P.size) : Except Fault (State P.size) := do
  let blm := bloomInitConf (bloomInit P.size) s.bloomConf
  let (cmr, volume) ← orCrash (ContainerManager.init s.volume)
  let lpc ← orCrash ((LruCache.new lruSize).initConf s.lcpConf)
  .ok { s with
    blm := blm, cmr := cmr, volume := volume, lpc := lpc
    indexAccess := 0, loadingAccess := 0, updateAccess := 0 }

def punique (s : State P.size) (key : Fp) (chunkSize : ℤ) : State P.size :=
  let blm := bloomAdd P.hash s.blm key.val
  let (cmr, volume) := s.cmr.insert (P.stale s.cmr.nowId) s.volume key chunkSize
  let (r, index) := fpInsert s.index key cmr.nowId
  { s with
    blm := blm, cmr := cmr, volume := volume, index := index
    updateAccess := s.updateAccess + 1
    putResults := s.putResults ++ [r] }

def loadCache (s : State P.size) (conti : List Fp) : Except Fault (State P.size) :=
  conti.foldlM (fun s it => do
    let (_, lpc) ← orCrash (s.lpc.putdata it)
    .ok { s with lpc := lpc, loadingAccess := s.loadingAccess + 1 }) s

/-- One round of the loop of `read_hashes`, on a parsed line. -/
def readChunk (s : State P.size) (c : Chunk) : Except Fault (State P.size) := do
  let (hit, lpc) ← orCrash (s.lpc.find c.hash)
  let s := { s with lpc := lpc }
  if hit then .ok s
  else if bloomCheck P.hash s.blm c.hash.val = 0 then .ok (punique P s c.hash c.size)
  else
    let fpid := fpFind s.index c.hash
    let s := { s with indexAccess := s.indexAccess + 1 }
    if fpid = -1 then .ok (punique P s c.hash c.size)
    else
      let (flag, conti) := s.cmr.loadtonode s.volume fpid
      if flag = false then .error .loadFailed else loadCache P s conti

def finishRun (s : State P.size) : Except Fault (State P.size) := do
  let (_, cmr, volume) := s.cmr.pocessw (P.stale s.cmr.nowId) s.volume
  let conf ← orCrash s.lpc.outputConf
  .ok { s with
    cmr := cmr, volume := volume
    bloomConf := some (bloomConfOut s.blm), lcpConf := some conf
    updates := s.updates + s.updateAccess }

def ddfs (s : State P.size) (trace : List Chunk) : Except Fault (State P.size) := do
  let s ← sysIni P s
  let s ← trace.foldlM (readChunk P) s
  finishRun P s

inductive Phase where
  | idle
  | running

/-- The steps of a run. A chunk step is allowed when it satisfies `ok`. -/
inductive Step (ok : State P.size → Chunk → Prop) :
    Phase → State P.size → Phase → State P.size → Prop
  | start {s s' : State P.size} : sysIni P s = .ok s' → Step ok .idle s .running s'
  | chunk {s s' : State P.size} (c : Chunk) :
      ok s c → readChunk P s c = .ok s' → Step ok .running s .running s'
  | finish {s s' : State P.size} : finishRun P s = .ok s' → Step ok .running s .idle s'

inductive Reachable (ok : State P.size → Chunk → Prop) : Phase → State P.size → Prop
  | initial : Reachable ok .idle (State.initial P.size)
  | step {ph ph' : Phase} {s s' : State P.size} :
      Reachable ok ph s → Step P ok ph s ph' s' → Reachable ok ph' s'

def anyChunk (_ : State P.size) (_ : Chunk) : Prop := True

end Steps
end FreqAnalysis.Ddfs
