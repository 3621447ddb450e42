import Std.Data.HashMap
import ScanMatch.Scan.CellSet

/-!
# Scan caches

A scan together with the cell sets made of it so far. A cell set is made on the first query for
its key and handed out again on every later one, until the cache is cleared. Each set made gets
the next serial number, so two queries were answered by the same set exactly if the serial
numbers agree.
-/
namespace ScanMatch

/-- What a query is remembered under: rotation and resolution are rounded to whole nanoradians
and nanometers, so that rotations computed in different ways meet. -/
structure CacheKey where
  level : Nat
  nanoradians : Int
  nanometers : Int
  deriving DecidableEq, Hashable, Repr

def CacheKey.ofQuery {S R : Type} [Scalar R] [Precision S R] (metersPerPixel : S) (rotation : R)
    (level : Nat) : CacheKey where
  level
  nanoradians := Scalar.toInt64 (Scalar.round (rotation * 1e9))
  nanometers := Scalar.toInt64 (Scalar.round ((widen metersPerPixel : R) * 1e9))

/-- A cell set as handed out, with the serial number that it was made under. -/
structure SharedSet where
  serial : Nat
  set : CellSet
  deriving DecidableEq, Repr

/-- A scan and the cell sets made of it since the last clearing. -/
structure ScanCache (S : Type) where
  points : Array (Point S)
  merge : Bool
  sets : Std.HashMap CacheKey SharedSet
  made : Nat

namespace ScanCache

variable {S R : Type}

def ofPoints (points : Array (Point S)) (merge : Bool) : ScanCache S := ⟨points, merge, ∅, 0⟩

/-- The cell set for a resolution, rotation and level, and the cache that remembers it. -/
def get [Scalar R] [Precision S R] (cache : ScanCache S) (metersPerPixel : S) (rotation : R)
    (level : Nat) : Checked (SharedSet × ScanCache S) :=
  let key := CacheKey.ofQuery metersPerPixel rotation level
  match cache.sets[key]? with
  | some shared => .ok (shared, cache)
  | none => do
    let set ← CellSet.quantize cache.points metersPerPixel rotation level cache.merge
    let shared : SharedSet := ⟨cache.made, set⟩
    return (shared, { cache with sets := cache.sets.insert key shared, made := cache.made + 1 })

/-- The cache without its cell sets. The scan is kept, and so are sets handed out before. -/
def clear (cache : ScanCache S) : ScanCache S := { cache with sets := ∅ }

def size (cache : ScanCache S) : Nat := cache.points.size

def isEmpty (cache : ScanCache S) : Bool := cache.points.isEmpty

def cachedSets (cache : ScanCache S) : Nat := cache.sets.size

end ScanCache

end ScanMatch
