import Mathlib.Init
set_option autoImplicit false

/-! The tag and the coherence state of a cached line. -/

namespace Sniper

/-- `CacheState::cstate_t` of a cached line. -/
inductive CacheState where
  | invalid | shared | sharedUpgrading | exclusive | owned | modified
deriving DecidableEq, Repr

def CacheState.readable : CacheState → Bool
  | .modified | .owned | .shared | .exclusive => true
  | .invalid | .sharedUpgrading => false

def CacheState.writable : CacheState → Bool
  | .modified => true
  | .invalid | .shared | .sharedUpgrading | .exclusive | .owned => false

namespace Cache

/-- `IntPtr`, for addresses, tags and supertags. -/
abbrev Addr := BitVec 64

def tagUnused : Addr := BitVec.allOnes 64

structure CacheBlockInfo where
  tag : Addr
  cstate : CacheState
  deriving DecidableEq, Repr

namespace CacheBlockInfo

/-- A block info as `create` and `setTag` leave it. -/
def new (tag : Addr) : CacheBlockInfo := ⟨tag, .invalid⟩

def isValid (i : CacheBlockInfo) : Bool := i.tag != tagUnused

def invalidate (_ : CacheBlockInfo) : CacheBlockInfo := ⟨tagUnused, .invalid⟩

end CacheBlockInfo

end Cache

end Sniper
