import FreqAnalysis.Base.LinkedList
import FreqAnalysis.Base.Text
import FreqAnalysis.Fingerprint

/-!
# The fingerprint cache (lrucache.cc)

The cache as the source builds it: a doubly linked list of `listnode`s from
`head` (most recent) to `back`, and a table of chained `hashnode`s, each of
which points at one list node. Nodes live in two stores; `new` returns an
address that was never used before, and `delete` empties the address, so a
dangling pointer is visible. Every operation returns `none` where the source
would dereference a null or freed pointer.
-/

namespace FreqAnalysis.Ddfs
open Base

def hashSize : ℕ := 5000000

/-- `class lrucache`. A `listnode` is a link with the key as data, a `hashnode`
one with `list_pos` as data; `brk` is the address the next `new` returns. -/
structure LruCache where
  maxCacheSize : ℤ
  nowCacheSize : ℤ
  hashTable : ℕ → Option ℕ
  head : Option ℕ
  back : Option ℕ
  listNodes : Store Fp
  hashNodes : Store ℕ
  brk : ℕ

def LruCache.new (size : ℤ) : LruCache where
  maxCacheSize := size
  nowCacheSize := 0
  hashTable := fun _ => none
  head := none
  back := none
  listNodes := fun _ => none
  hashNodes := fun _ => none
  brk := 0

/-- The value of a `char`, which is signed on the target. -/
def signedChar (c : Byte) : ℤ := if c.val < 128 then c.val else (c.val : ℤ) - 256

/-- `str_hash`: `key = key * 5 + *(str + i)` wraps at 64 bits. The final `abs`
does nothing to a value below `HASH_SIZE`. -/
def strHash (str : Fp) : ℕ :=
  (str.val.foldl (fun key c => (key * 5 + signedChar c) % 2 ^ 64) 0 % hashSize).toNat

namespace LruCache

def keyMatches (c : LruCache) (str : Fp) (p : ℕ) : Option Bool :=
  (c.listNodes p).map fun nd => sameCStr nd.data str

def insertHash (c : LruCache) (str : Fp) (p : ℕ) : Option LruCache := do
  let pos := strHash str
  let (nodes, first) ← c.hashNodes.pushBack c.brk (c.hashTable pos) c.brk p
  some { c with
    hashNodes := nodes
    hashTable := Function.update c.hashTable pos first
    brk := c.brk + 1 }

/-- `delete_hash`: the first node of the chain whose key equals `str`. -/
def deleteHash (c : LruCache) (str : Fp) : Option (Bool × LruCache) := do
  let pos := strHash str
  match ← c.hashNodes.findFrom (c.keyMatches str) c.brk (c.hashTable pos) with
  | none => some (false, c)
  | some q => do
    let (nodes, first, _) ← c.hashNodes.unlink (c.hashTable pos) none q
    some (true, { c with
      hashNodes := nodes.free q
      hashTable := Function.update c.hashTable pos first })

/-- `delete_node`. The size is decremented before the null test. -/
def deleteNode (c : LruCache) (p : Option ℕ) : Option (Bool × LruCache) :=
  let c := { c with nowCacheSize := c.nowCacheSize - 1 }
  match p with
  | none => some (false, c)
  | some t => do
    let nd ← c.listNodes t
    let (nodes, head, back) ← c.listNodes.unlink c.head c.back t
    let (_, c) ← { c with listNodes := nodes, head := head, back := back }.deleteHash nd.data
    some (true, { c with listNodes := c.listNodes.free t })

/-- `add_node_to_head`: a new node at the head; a full cache loses its back. -/
def addNodeToHead (c : LruCache) (str : Fp) : Option (Bool × LruCache) := do
  let q := c.brk
  let (nodes, head, back) ← c.listNodes.pushFront c.head c.back q str
  let c ← { c with listNodes := nodes, head := head, back := back, brk := c.brk + 1 }.insertHash
    str q
  if c.nowCacheSize < c.maxCacheSize then
    some (true, { c with nowCacheSize := c.nowCacheSize + 1 })
  else do
    let (_, c) ← c.deleteNode c.back
    some (true, { c with nowCacheSize := c.nowCacheSize + 1 })

/-- `find_hash`: a hit deletes the node found and inserts the caller's bytes. -/
def findHash (c : LruCache) (str : Fp) : Option (Bool × LruCache) := do
  match ← c.hashNodes.findFrom (c.keyMatches str) c.brk (c.hashTable (strHash str)) with
  | none => some (false, c)
  | some q => do
    let nd ← c.hashNodes q
    let (_, c) ← c.deleteNode (some nd.data)
    let (_, c) ← c.addNodeToHead str
    some (true, c)

def find (c : LruCache) (str : Fp) : Option (Bool × LruCache) := c.findHash str

def putdata (c : LruCache) (str : Fp) : Option (Bool × LruCache) := do
  let (hit, c) ← c.find str
  if hit then some (false, c) else c.addNodeToHead str

def recency (c : LruCache) : Option (List Fp) := c.listNodes.walk c.brk c.head

def outputConf (c : LruCache) : Option (List Char) :=
  (c.listNodes.walk c.brk c.head).map fun keys => putLines (keys.map Fp.text)

/-- `init_conf`: every line of the file, if there is one, goes to the head. -/
def initConf (c : LruCache) : Option (List Char) → Option LruCache
  | none => some c
  | some conf =>
    (getLines conf).foldlM (fun c line => (c.addNodeToHead (Fp.ofText line)).map Prod.snd) c

end LruCache
end FreqAnalysis.Ddfs
