import Containers.ChainedMap.Basic

/-!
# Settings for new maps

The number of buckets of a map is fixed when it is made. There are 64 unless another number is
chosen. The hash of a map is chosen apart from that.
-/

namespace Containers

/-- The number of buckets of a map that was not given one. -/
def usualBuckets : Nat := 64

/-- What a new map is made with. -/
structure MapSettings where
  /-- The number of buckets. -/
  buckets : Nat := usualBuckets
  /-- There is at least one bucket. -/
  buckets_pos : 0 < buckets := by decide
deriving DecidableEq

namespace MapSettings

/-- Settings with this many buckets. A directory has at least one, so zero leaves the settings as
they are. -/
def withBuckets (settings : MapSettings) (buckets : Nat) : MapSettings :=
  if h : 0 < buckets then ⟨buckets, h⟩ else settings

/-- Whether these are the default settings. -/
def isDefault (settings : MapSettings) : Bool := settings = {}

/-- The settings by name, for logs. -/
def debugText (settings : MapSettings) : String :=
  s!"MapBuilder \x7b buckets: {settings.buckets} \x7d"

/-- An empty map with these settings and this hash. -/
def create [Allocator] {κ V : Type} (settings : MapSettings) (hash : KeyHash) :
    Except Fault (ChainedMap κ V) :=
  ChainedMap.create hash settings.buckets settings.buckets_pos

end MapSettings

/-- An empty map with the default settings and the reference hash. -/
def ChainedMap.empty [Allocator] {κ V : Type} : Except Fault (ChainedMap κ V) :=
  MapSettings.create {} .xor

end Containers
