import SmallAIOS.Lib.Bitmap
import SmallAIOS.Lib.Run
import SmallAIOS.Lib.Slots
import Mathlib.Algebra.Group.Nat.Defs

/-!
# Capability-based access control

Every resource access requires a capability token. `CapRegistry` tracks the
capabilities of the system in a table of `maxTotalCaps` slots. A capability is
created as a root grant, or *delegated* from another one with at most its
permissions and its lifetime, which it then names as its parent; it is revoked
together with the capabilities delegated from it.

Revoked identifiers are remembered in a bitmap indexed by the identifier
modulo `revokedBitmapSize`. The cascade of `revoke` collects the children of
the capability revoked in an array of `maxChildren` entries, and recurses.

Capability and task identifiers (`CapId`, `TaskId`) and times are numbers. A
call returns the value it returns and the registry after it. `insert` counts
the identifiers in a machine word: the addition panics when they run out, and
the call has no outcome (`none`).
-/

namespace SmallAIOS.Security

open Lib

/-- Maximum number of capabilities per task. -/
def maxCapsPerTask : ℕ := 256

/-- Maximum total capabilities system-wide. -/
def maxTotalCaps : ℕ := 4096

/-- The number of bits of the bitmap of revoked identifiers. -/
def revokedBitmapSize : ℕ := 4096

/-- The number of words of the bitmap of revoked identifiers. -/
def revokedBitmapWords : ℕ := revokedBitmapSize / 64

/-- The size of the array in which `revoke` collects children. -/
def maxChildren : ℕ := 64

/-- Resource types that capabilities can protect. -/
inductive ResourceType
  | tensorBuffer
  | onnxModel
  | ipcEndpoint
  | gpuDevice
  | networkSocket
  | systemConfig
  | systemControl
  | device
  deriving DecidableEq

/-- Reference to a specific resource instance. -/
structure ResourceRef where
  resourceType : ResourceType
  instanceId : UInt64
  deriving DecidableEq

/-- Permission bitmask for capabilities. -/
structure Permissions where
  bits : BitVec 32
  deriving DecidableEq

namespace Permissions

def read : Permissions := ⟨0b0001⟩
def grant : Permissions := ⟨0b1000⟩
def all : Permissions := ⟨0b1111⟩

/-- Whether the permissions include those of `other`. -/
def contains (self other : Permissions) : Bool := self.bits &&& other.bits == other.bits

/-- Whether the permissions are among those of `other`. -/
def isSubsetOf (self other : Permissions) : Bool := self.bits &&& ~~~other.bits == 0

end Permissions

/-- Errors from capability operations. -/
inductive CapError
  | notFound
  | expired
  | wrongResource
  | insufficientPermissions
  | delegationExceedsPermissions
  | revoked
  | tooManyCaps
  | systemLimitReached
  | invalidId
  deriving DecidableEq

/-- A capability token granting access to a resource. -/
structure Capability where
  id : ℕ
  resource : ResourceRef
  permissions : Permissions
  /-- Optional expiry timestamp (0 = no expiry). -/
  expires : ℕ
  /-- Task that owns this capability. -/
  owner : ℕ
  /-- Capability this was delegated from (0 = root grant). -/
  parent : ℕ
  deriving DecidableEq

namespace Capability

variable (cap : Capability)

/-- Whether the capability has expired. -/
def isExpired (now : ℕ) : Bool := cap.expires != 0 && decide (cap.expires ≤ now)

/-- Whether the capability grants the requested permissions on the resource. -/
def check (resource : ResourceRef) (required : Permissions) (now : ℕ) : Except CapError Unit :=
  if cap.isExpired now then .error .expired
  else if cap.resource ≠ resource then .error .wrongResource
  else if !cap.permissions.contains required then .error .insufficientPermissions
  else .ok ()

end Capability

/-- The expiry of a delegation asking for `newExpires`: no later than that of the parent, if the
    parent expires. -/
def effectiveExpires (parentExpires newExpires : ℕ) : ℕ :=
  if parentExpires ≠ 0 ∧ (newExpires = 0 ∨ parentExpires < newExpires) then parentExpires
  else newExpires

/-- Capability registry: all the capabilities of the system. -/
structure CapRegistry where
  /-- All capabilities in the system. -/
  caps : Slots Capability maxTotalCaps
  /-- Next capability identifier to assign. -/
  nextId : ℕ
  /-- Set of revoked identifiers, modulo `revokedBitmapSize`. -/
  revoked : Bitmap revokedBitmapWords

namespace CapRegistry

/-- An empty capability registry (0 is reserved: no parent). -/
def new : CapRegistry where
  caps := .empty _ _
  nextId := 1
  revoked := .empty _

variable (s : CapRegistry)

/-- The capabilities in the registry, in the order of their slots. -/
def live : List Capability := s.caps.entries

/-- The capability with the given identifier. -/
def find (capId : ℕ) : Option Capability := s.live.find? (·.id == capId)

/-- Whether the bit of the identifier is set in the bitmap. -/
def isRevoked (capId : ℕ) : Bool := s.revoked.mem (capId % revokedBitmapSize)

/-- Set the bit of the identifier in the bitmap. -/
def markRevoked (capId : ℕ) : CapRegistry :=
  { s with revoked := s.revoked.insert (capId % revokedBitmapSize) }

/-- Count capabilities held by a task. -/
def countForTask (taskId : ℕ) : ℕ :=
  s.live.countP fun c => c.owner == taskId && !s.isRevoked c.id

/-- Put a new capability into a free slot. -/
def insert (owner : ℕ) (resource : ResourceRef) (permissions : Permissions)
    (expires parent : ℕ) : Option (Except CapError ℕ × CapRegistry) :=
  if maxCapsPerTask ≤ s.countForTask owner then some (.error .tooManyCaps, s)
  else match s.caps.fill? ⟨s.nextId, resource, permissions, expires, owner, parent⟩ with
    | none => some (.error .systemLimitReached, s)
    | some caps =>
      -- The increment of the counter overflows.
      if 2 ^ 64 ≤ s.nextId + 1 then none
      else some (.ok s.nextId, { s with caps, nextId := s.nextId + 1 })

/-- Create a new capability (root grant: no parent). -/
def create (owner : ℕ) (resource : ResourceRef) (permissions : Permissions) (expires : ℕ) :
    Option (Except CapError ℕ × CapRegistry) :=
  s.insert owner resource permissions expires 0

/-- Delegate a capability to another task with reduced permissions. -/
def delegate (capId : ℕ) (toTask : ℕ) (newPerms : Permissions) (newExpires now : ℕ) :
    Option (Except CapError ℕ × CapRegistry) :=
  match s.find capId with
  | none => some (.error .notFound, s)
  | some parent =>
    if s.isRevoked capId then some (.error .revoked, s)
    else if parent.isExpired now then some (.error .expired, s)
    else if !parent.permissions.contains .grant then some (.error .insufficientPermissions, s)
    else if !newPerms.isSubsetOf parent.permissions then
      some (.error .delegationExceedsPermissions, s)
    else s.insert toTask parent.resource newPerms (effectiveExpires parent.expires newExpires) capId

/-- Mark a capability as revoked and remove it from its slot. -/
def remove (capId : ℕ) : CapRegistry :=
  { s.markRevoked capId with caps := s.caps.vacate (·.id == capId) }

/-- The children the cascade collects: the first `maxChildren`. -/
def children (capId : ℕ) : List ℕ :=
  ((s.live.filter (·.parent == capId)).take maxChildren).map (·.id)

/-- The recursion of `revoke`, cut off at a depth of `fuel`. -/
def revokeAux : ℕ → CapRegistry → ℕ → CapRegistry
  | 0, s, _ => s
  | fuel + 1, s, capId =>
    if (s.find capId).isNone then s
    else ((s.remove capId).children capId).foldl (revokeAux fuel) (s.remove capId)

/-- Revoke a capability and the children collected, recursively. Every level of the recursion
    removes a capability, so that a depth of `maxTotalCaps` is never cut off (`revoke_eq`). -/
def revoke (capId : ℕ) : Except CapError Unit × CapRegistry :=
  if (s.find capId).isNone then (.error .notFound, s)
  else (.ok (), revokeAux maxTotalCaps s capId)

/-- Look up a capability by its identifier. -/
def lookup (capId : ℕ) (now : ℕ) : Except CapError Capability :=
  if s.isRevoked capId then .error .revoked
  else match s.find capId with
    | none => .error .notFound
    | some cap => if cap.isExpired now then .error .expired else .ok cap

/-- Whether a task has the required permissions on a resource. -/
def check (taskId : ℕ) (resource : ResourceRef) (required : Permissions) (now : ℕ) :
    Except CapError ℕ :=
  match s.live.find? fun c => c.owner == taskId && !s.isRevoked c.id &&
      (c.check resource required now).isOk with
  | some cap => .ok cap.id
  | none => .error .insufficientPermissions

end CapRegistry

/-! ## Runs -/

/-- A call that changes the registry. -/
inductive Call
  | create (owner : ℕ) (resource : ResourceRef) (permissions : Permissions) (expires : ℕ)
  | delegate (capId : ℕ) (toTask : ℕ) (newPerms : Permissions) (newExpires now : ℕ)
  | revoke (capId : ℕ)

/-- What a call returns. -/
inductive Ret
  | id (r : Except CapError ℕ)
  | unit (r : Except CapError Unit)

namespace CapRegistry

/-- A call on the registry. -/
def step (s : CapRegistry) : Call → Option (Ret × CapRegistry)
  | .create o r p e => (s.create o r p e).map fun x => (.id x.1, x.2)
  | .delegate c o p e now => (s.delegate c o p e now).map fun x => (.id x.1, x.2)
  | .revoke c => some (.unit (s.revoke c).1, (s.revoke c).2)

/-- The registry `s` is reached from the empty one by the calls of `t`. -/
abbrev Run (t : List (Call × Ret)) (s : CapRegistry) : Prop := Reaches step new t s

end CapRegistry

end SmallAIOS.Security
