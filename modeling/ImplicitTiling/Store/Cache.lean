import ImplicitTiling.Error
import ImplicitTiling.Tile

/-!
# Blob caches
-/

namespace ImplicitTiling

/-- A store of byte strings under rank roots. -/
structure BlobCache (m : Type → Type) where
  /-- The bytes held for a rank root. -/
  get : Node → m (Except Error (Option ByteArray))
  /-- Holds bytes for a rank root, in place of any held before. -/
  put : Node → ByteArray → m (Except Error Unit)

namespace BlobCache

variable {m : Type → Type} [Monad m]

/-- Fails to read the given rank roots. -/
def refusingGet (cache : BlobCache m) (failure : Error) (nodes : List Node) : BlobCache m where
  get n := if n ∈ nodes then pure (.error failure) else cache.get n
  put := cache.put

/-- Fails to write the given rank roots. -/
def refusingPut (cache : BlobCache m) (failure : Error) (nodes : List Node) : BlobCache m where
  get := cache.get
  put n blob := if n ∈ nodes then pure (.error failure) else cache.put n blob

end BlobCache

end ImplicitTiling
