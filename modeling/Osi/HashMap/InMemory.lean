import Osi.HashMap.Basic
import Osi.Memory.Heap

/-!
# The hash map with its entries in memory

Here the entries are objects in a heap, and a bucket list contains their addresses.
`list_remove` takes the address that the search returned, and all entries that leave a
list go through `bucket_free_`, the `free_cb` of the bucket lists: it calls `key_fn`
and `data_fn`, if there are such, on the key and the data of the entry, and releases
its memory. A function is undefined if it uses an entry that is not allocated.

The bucket lists are the sequences of `LinkedList`, so that only the entries are in
memory. The allocations succeed; `contents` reads the map of `HashMap.Basic` off the
heap.
-/

namespace Osi

open Memory

inductive FreeCall (κ δ : Type*)
  | key (key : κ)
  | data (data : δ)
  deriving DecidableEq, Repr

/-- A `hash_map_t`, the heap of its entries, and the calls of `key_fn` and `data_fn`, in
their order. `keyFn` and `dataFn` say if there are such functions; `live` is false after
`hash_map_free`. -/
structure HashMapT {κ : Type} (P : HashMapParams κ) (δ : Type) where
  bucket : Fin P.numBucket → Option (List Addr)
  hashSize : ℕ
  entry : Heap (HashMapEntry κ δ)
  keyFn : Bool
  dataFn : Bool
  calls : List (FreeCall κ δ)
  live : Bool

namespace HashMapT

variable {κ δ : Type} {P : HashMapParams κ}

def new (entry : Heap (HashMapEntry κ δ)) (keyFn dataFn : Bool) : HashMapT P δ where
  bucket := fun _ => none
  hashSize := 0
  entry := entry
  keyFn := keyFn
  dataFn := dataFn
  calls := []
  live := true

def freeCalls (keyFn dataFn : Bool) (e : HashMapEntry κ δ) : List (FreeCall κ δ) :=
  (if keyFn then [.key e.key] else []) ++ if dataFn then [.data e.data] else []

def bucketFree (m : HashMapT P δ) (a : Addr) : Option (HashMapT P δ) := do
  if a = 0 then none
  let e ← load m.entry a
  let entry ← free m.entry a
  return { m with entry := entry, calls := m.calls ++ freeCalls m.keyFn m.dataFn e }

/-- `find_bucket_entry_`; `some none` is `NULL`. -/
def findBucketEntry (m : HashMapT P δ) : List Addr → κ → Option (Option Addr)
  | [], _ => some none
  | a :: l, key => do
    let e ← load m.entry a
    if P.keysAreEqual e.key key then return some a else m.findBucketEntry l key

def setBucket (m : HashMapT P δ) (i : Fin P.numBucket) (l : List Addr) : HashMapT P δ :=
  { m with bucket := Function.update m.bucket i (some l) }

/-- `list_remove` on a bucket list: the first node with the address goes. -/
def listRemove (m : HashMapT P δ) (i : Fin P.numBucket) (l : List Addr) (a : Addr) :
    Option (HashMapT P δ × Bool) :=
  if a ∈ l then (m.bucketFree a).map fun m => (m.setBucket i (l.erase a), true)
  else some (m, false)

/-- `hash_map_set`; the allocator returns `entry`. -/
def set (m : HashMapT P δ) (key : κ) (data : δ) (entry : Addr) : Option (HashMapT P δ) := do
  let i := P.hashKey key
  -- the list is made if there is none
  let m := m.setBucket i ((m.bucket i).getD [])
  let l ← m.bucket i
  let found ← m.findBucketEntry l key
  let m ← match found with
    | some a => do
      let (m, rc) ← m.listRemove i l a
      if rc then some m else none
    | none => some { m with hashSize := m.hashSize + 1 }
  let l ← m.bucket i
  let heap ← alloc m.entry entry { key := key, data := data }
  return { m.setBucket i (l ++ [entry]) with entry := heap }

def erase (m : HashMapT P δ) (key : κ) : Option (HashMapT P δ × Bool) := do
  let i := P.hashKey key
  match m.bucket i with
  | none => return (m, false)
  | some l =>
    let found ← m.findBucketEntry l key
    match found with
    | none => return (m, false)
    | some a => listRemove { m with hashSize := m.hashSize - 1 } i l a

def listClear (m : HashMapT P δ) : List Addr → Option (HashMapT P δ)
  | [] => some m
  | a :: l => do
    let m ← m.bucketFree a
    m.listClear l

def clearFrom (m : HashMapT P δ) : List (Fin P.numBucket) → Option (HashMapT P δ)
  | [] => some m
  | i :: is =>
    match m.bucket i with
    | none => m.clearFrom is
    | some l => do
      let m ← m.listClear l
      clearFrom { m with bucket := Function.update m.bucket i none } is

def clear (m : HashMapT P δ) : Option (HashMapT P δ) :=
  m.clearFrom (List.finRange P.numBucket)

def hashMapFree (m : HashMapT P δ) : Option (HashMapT P δ) :=
  m.clear.map fun m => { m with live := false }

/-! ## Clients -/

/-- The calls of a client; `entry` is what the allocator returns. -/
inductive Label (κ δ : Type*)
  | set (key : κ) (data : δ) (entry : Addr)
  | erase (key : κ)
  | clear
  | free
  deriving DecidableEq, Repr

/-- Why a call is not made, or does not return. -/
inductive Fault
  /-- the map was freed, or the address that the allocator is to return is in use -/
  | notAllowed
  /-- the call fails -/
  | failed
  deriving DecidableEq, Repr

/-- The allocator may return the address: it is not in use, or it is that of the entry
that `hash_map_set` has just released. -/
def usable (m : HashMapT P δ) (key : κ) (entry : Addr) : Bool :=
  entry ≠ 0 ∧ ((m.entry entry).isNone ∨
    m.findBucketEntry ((m.bucket (P.hashKey key)).getD []) key = some (some entry))

def allowed (m : HashMapT P δ) : Label κ δ → Bool
  | .set key _ entry => m.live && m.usable key entry
  | _ => m.live

def call (m : HashMapT P δ) : Label κ δ → Option (HashMapT P δ)
  | .set key data entry => m.set key data entry
  | .erase key => (m.erase key).map Prod.fst
  | .clear => m.clear
  | .free => m.hashMapFree

def step (m : HashMapT P δ) (l : Label κ δ) : Except Fault (HashMapT P δ) :=
  if allowed m l then (call m l).elim (.error .failed) .ok else .error .notAllowed

def contents (m : HashMapT P δ) : HashMap P δ where
  bucket := fun i => (m.bucket i).map fun l => l.filterMap m.entry
  hashSize := m.hashSize

def pairs (m : HashMapT P δ) : List (HashMapEntry κ δ) := m.contents.entries

def setPairs (ls : List (Label κ δ)) : List (HashMapEntry κ δ) :=
  ls.filterMap fun
    | .set key data _ => some { key := key, data := data }
    | _ => none

/-- The pairs in the map that a call is to release: those with the key that it names, or
all of them. -/
def toRelease (m : HashMapT P δ) : Label κ δ → List (HashMapEntry κ δ)
  | .set key _ _ => m.pairs.filter fun e => P.keysAreEqual e.key key
  | .erase key => m.pairs.filter fun e => P.keysAreEqual e.key key
  | .clear => m.pairs
  | .free => m.pairs

end HashMapT

end Osi
