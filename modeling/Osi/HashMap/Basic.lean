import Osi.Transition.Calls
import Osi.Collection.Keyed
import Mathlib.Data.List.FinRange
import Mathlib.Logic.Function.Basic

/-!
# The hash map

`HashMap P δ` is a `hash_map_t` created with the parameters `P`: an array of
bucket lists, each `NULL` until the first entry is put into it, and the counter
`hash_size`, which is kept apart from the lists. The key equality and the hash
function are the user's and need not be lawful; `Lawful` says when they are.

An entry is allocated for one `hash_map_set` and appended to one list, so the
entry that `find_bucket_entry_` returns is in its list once, and `list_remove`
of its pointer takes out the element the search stopped at. The entries handed
to `bucket_free_` are returned beside the result, and the outcome of the three
allocations of `hash_map_set` is an argument of it.
-/

namespace Osi

open Collection

/-- `hash_map_entry_t`, without the pointer back to the map. -/
structure HashMapEntry (κ δ : Type*) where
  key : κ
  data : δ
  deriving DecidableEq

structure HashMapParams (κ : Type*) where
  numBucket : ℕ
  hashFn : κ → ℕ
  keysAreEqual : κ → κ → Bool
  numBucket_pos : 0 < numBucket

namespace HashMapParams

variable {κ : Type*} (P : HashMapParams κ)

def hashKey (key : κ) : Fin P.numBucket :=
  ⟨P.hashFn key % P.numBucket, Nat.mod_lt _ P.numBucket_pos⟩

structure Lawful : Prop where
  equality : Equality P.keysAreEqual
  hashFn_eq : ∀ k k', P.keysAreEqual k k' = true → P.hashFn k = P.hashFn k'

theorem Lawful.hashKey_eq {P : HashMapParams κ} (hP : P.Lawful) {k k' : κ}
    (h : P.keysAreEqual k k' = true) : P.hashKey k = P.hashKey k' := by
  simp only [hashKey, hP.hashFn_eq k k' h]

def Lawful.setoid {P : HashMapParams κ} (hP : P.Lawful) : Setoid κ where
  r := fun k k' => P.keysAreEqual k k' = true
  iseqv := hP.equality

end HashMapParams

structure HashMap {κ : Type*} (P : HashMapParams κ) (δ : Type*) where
  bucket : Fin P.numBucket → Option (List (HashMapEntry κ δ))
  hashSize : ℕ

/-- Which of the allocations of one `hash_map_set` succeed: the list of the
bucket (when it has none), the entry, and the node that `list_append` makes. -/
structure Allocation where
  list : Bool
  entry : Bool
  node : Bool
  deriving DecidableEq

def Allocation.succeeding : Allocation where
  list := true
  entry := true
  node := true

namespace HashMap

variable {κ δ γ : Type*} {P : HashMapParams κ}

def new : HashMap P δ where
  bucket := fun _ => none
  hashSize := 0

def isEmpty (m : HashMap P δ) : Bool := m.hashSize == 0

def size (m : HashMap P δ) : ℕ := m.hashSize

def findBucketEntry (hashBucketList : Option (List (HashMapEntry κ δ))) (key : κ) :
    Option (HashMapEntry κ δ) :=
  match hashBucketList with
  | none => none
  | some l => lookup HashMapEntry.key P.keysAreEqual key l

def hasKey (m : HashMap P δ) (key : κ) : Bool :=
  (findBucketEntry (P := P) (m.bucket (P.hashKey key)) key).isSome

/-- `hash_map_get`; `none` is `NULL`. -/
def get (m : HashMap P δ) (key : κ) : Option δ :=
  (findBucketEntry (P := P) (m.bucket (P.hashKey key)) key).map HashMapEntry.data

def setBucket (m : HashMap P δ) (i : Fin P.numBucket)
    (l : List (HashMapEntry κ δ)) : HashMap P δ :=
  { m with bucket := Function.update m.bucket i (some l) }

/-- `hash_map_set` from the search on, in the bucket list `l`: the entry it
finds is removed and released, otherwise the size goes up, and only then are
the new entry and its node allocated. -/
def setIn (m : HashMap P δ) (a : Allocation) (key : κ) (data : δ)
    (l : List (HashMapEntry κ δ)) :
    HashMap P δ × List (HashMapEntry κ δ) × Bool :=
  let i := P.hashKey key
  let (m', l', released) :=
    match findBucketEntry (P := P) (some l) key with
    | some e => (m, removeFirst HashMapEntry.key P.keysAreEqual key l, [e])
    | none => ({ m with hashSize := m.hashSize + 1 }, l, [])
  if a.entry && a.node then
    (m'.setBucket i (l' ++ [⟨key, data⟩]), released, true)
  else (m'.setBucket i l', released, false)

def set (m : HashMap P δ) (a : Allocation) (key : κ) (data : δ) :
    HashMap P δ × List (HashMapEntry κ δ) × Bool :=
  match m.bucket (P.hashKey key) with
  | some l => m.setIn a key data l
  | none => if a.list then m.setIn a key data [] else (m, [], false)

def erase (m : HashMap P δ) (key : κ) :
    HashMap P δ × List (HashMapEntry κ δ) × Bool :=
  let i := P.hashKey key
  match m.bucket i with
  | none => (m, [], false)
  | some l =>
      match findBucketEntry (P := P) (some l) key with
      | none => (m, [], false)
      | some e =>
          ({ m.setBucket i (removeFirst HashMapEntry.key P.keysAreEqual key l) with
              hashSize := m.hashSize - 1 },
            [e], true)

def entries (m : HashMap P δ) : List (HashMapEntry κ δ) :=
  (List.finRange P.numBucket).flatMap fun i => (m.bucket i).getD []

/-- `hash_map_clear`: the map and the entries released. The counter keeps its
value. -/
def clear (m : HashMap P δ) : HashMap P δ × List (HashMapEntry κ δ) :=
  ({ m with bucket := fun _ => none }, m.entries)

/-- The inner loop of `hash_map_foreach`, over the entries of one bucket: the
context it leaves, and whether every callback returned true. -/
def foreachBucket (callback : HashMapEntry κ δ → γ → γ × Bool) :
    List (HashMapEntry κ δ) → γ → γ × Bool
  | [], context => (context, true)
  | e :: l, context =>
      match callback e context with
      | (context', true) => foreachBucket callback l context'
      | (context', false) => (context', false)

def foreachFrom (m : HashMap P δ) (callback : HashMapEntry κ δ → γ → γ × Bool) :
    List (Fin P.numBucket) → γ → γ
  | [], context => context
  | i :: is, context =>
      match m.bucket i with
      | none => foreachFrom m callback is context
      | some l =>
          match foreachBucket callback l context with
          | (context', true) => foreachFrom m callback is context'
          | (context', false) => context'

def foreach (m : HashMap P δ) (callback : HashMapEntry κ δ → γ → γ × Bool)
    (context : γ) : γ :=
  m.foreachFrom callback (List.finRange P.numBucket) context

end HashMap

end Osi
