import ImplicitTiling.Store.Cache
import Std.Data.HashMap

/-!
# The memory cache

A cache in memory holds at most so many blobs, at least one, and makes room by dropping the one that
was used least recently. Reading and writing a blob both count as use.
-/

namespace ImplicitTiling

/-- The blobs in memory. -/
structure MemoryCache where
  /-- The most blobs that are held; `none` holds all. -/
  capacity : Option Nat := none
  blobs : Std.HashMap Node ByteArray := {}
  /-- The rank roots of all blobs, those used least recently first. -/
  usage : Array Node := #[]

namespace MemoryCache

/-- A cache without blobs; a capacity of zero counts as one. -/
def empty (capacity : Option Nat) : MemoryCache where
  capacity := capacity.map (max 1)

/-- The number of blobs. -/
def size (c : MemoryCache) : Nat :=
  c.blobs.size

/-- Whether there are no blobs. -/
def isEmpty (c : MemoryCache) : Bool :=
  c.size == 0

/-- Whether a blob is held. Looking does not count as use. -/
def contains (c : MemoryCache) (n : Node) : Bool :=
  c.blobs.contains n

/-- The rank roots of all blobs. -/
def keys (c : MemoryCache) : List Node :=
  c.blobs.keys

/-- Makes a rank root the one used last. -/
def touch (c : MemoryCache) (n : Node) : MemoryCache :=
  { c with usage := (c.usage.erase n).push n }

/-- Drops a blob. -/
def erase (c : MemoryCache) (n : Node) : MemoryCache :=
  { c with blobs := c.blobs.erase n, usage := c.usage.erase n }

/-- The bytes held for a rank root, which count as used. -/
def get (c : MemoryCache) (n : Node) : Option ByteArray × MemoryCache :=
  match c.blobs[n]? with
  | some blob => (some blob, c.touch n)
  | none => (none, c)

/-- Takes a blob out of the cache. -/
def remove (c : MemoryCache) (n : Node) : Option ByteArray × MemoryCache :=
  (c.blobs[n]?, c.erase n)

/-- Whether no further blob may be held. -/
def isAtCapacity (c : MemoryCache) : Bool :=
  match c.capacity with
  | some most => most ≤ c.size
  | none => false

/-- Drops the blob used least recently. -/
def evict (c : MemoryCache) : MemoryCache :=
  match c.usage[0]? with
  | some oldest => c.erase oldest
  | none => c

/-- Holds bytes for a rank root. A new one makes room first. -/
def put (c : MemoryCache) (n : Node) (blob : ByteArray) : MemoryCache :=
  if c.contains n then
    { c with blobs := c.blobs.insert n blob, usage := (c.usage.erase n).push n }
  else
    let c := if c.isAtCapacity then c.evict else c
    { c with blobs := c.blobs.insert n blob, usage := c.usage.push n }

/-- The memory cache as a collaborator of the store. -/
def cache : BlobCache (StateM MemoryCache) where
  get n := fun c =>
    let (found, c) := c.get n
    (.ok found, c)
  put n blob := fun c => (.ok (), c.put n blob)

end MemoryCache

end ImplicitTiling
