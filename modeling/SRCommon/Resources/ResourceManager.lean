import SRCommon.Lib.KeyedSets
import SRCommon.TypeTraits.Property

/-!
# Resources and their manager

`IResource`, `ResourceType` and `ResourceManager`, as far as they decide when a
resource is deleted. The methods of a resource work on the manager that holds
it and have no result for a resource that is deleted. A call holds the mutex of
the manager from its start to its end.
-/

namespace SRCommon

structure Resource where
  resourceHashName : UInt64
  resourceId : StringAtom
  resourcePath : StringAtom
  isFileResource : Bool := true
  isAllowedToRevive : Bool := false
  countUses : UInt16 := 0
  /-- The points that are held. `countUses` is what an `uint16_t` keeps of their number. -/
  usePoints : ℕ := 0
  lifetime : Int64 := 30000
  isForceDestroyed : Bool := false
  isDestroyed : Bool := false
  isRegistered : Bool := false

/-- `ResourceLifeTime`. -/
def resourceLifeTime : Int64 := 30000

inductive RemoveUPResult where
  | delete
  | destroy
  | success
  | error

structure ResourceType (ι : Type) where
  resources : List ι := []
  copies : StringAtom → Option (List ι) := fun _ => none
  /-- `m_loaded` of the info of a path. -/
  info : StringAtom → Option (List ι) := fun _ => none

structure ResourceManager (ι : Type) where
  resource : ι → Option Resource := fun _ => none
  destroyed : List ι := []
  resources : UInt64 → ResourceType ι := fun _ => {}
  /-- The resources that were deleted, with the points that were held then. -/
  deleted : List (ι × ℕ) := []

variable {ι : Type} [DecidableEq ι]

namespace ResourceType

variable (t : ResourceType ι)

def isLast (id : StringAtom) : Bool := (t.copies id).elim true fun copies => copies.length == 1

/-- `m_info.at` throws for a path that is missing. -/
def remove (pResource : ι) (resource : Resource) : Option (ResourceType ι) :=
  (t.copies resource.resourceId).elim (some t) fun copies =>
    (t.info resource.resourcePath).map fun loaded =>
      { resources := t.resources.erase pResource
        copies := KeyedSets.erase t.copies resource.resourceId copies pResource
        info := KeyedSets.erase t.info resource.resourcePath loaded pResource }

def add (pResource : ι) (resource : Resource) : ResourceType ι where
  resources := t.resources.insert pResource
  copies := KeyedSets.add t.copies resource.resourceId pResource
  info := KeyedSets.add t.info resource.resourcePath pResource

end ResourceType

namespace ResourceManager

variable (m : ResourceManager ι)

def modify (r : ι) (f : Resource → Resource) : ResourceManager ι :=
  { m with resource := Function.update m.resource r ((m.resource r).map f) }

def destroy (pResource : ι) : ResourceManager ι :=
  if pResource ∈ m.destroyed then m else { m with destroyed := m.destroyed ++ [pResource] }

def isLastResource (resource : Resource) : Bool :=
  (m.resources resource.resourceHashName).isLast resource.resourceId

def remove (pResource : ι) (resource : Resource) : Option (ResourceManager ι) :=
  if resource.isRegistered then
    ((m.resources resource.resourceHashName).remove pResource resource).map fun t =>
      { m with resources := Function.update m.resources resource.resourceHashName t }
  else some m

end ResourceManager

namespace IResource

open ResourceManager

variable (m : ResourceManager ι) (this : ι)

def destroy : ResourceManager ι :=
  (m.modify this fun resource => { resource with isDestroyed := true }).destroy this

/-- The object is gone. -/
def deleteResource : Option (ResourceManager ι) :=
  (m.resource this).map fun resource =>
    { m with
      resource := Function.update m.resource this none
      deleted := m.deleted ++ [(this, resource.usePoints)] }

def checkResourceUsage : Option (ResourceManager ι) :=
  (m.resource this).bind fun resource =>
    if resource.countUses = 0 ∧ resource.isDestroyed = false then
      if resource.isRegistered then some (destroy m this) else deleteResource m this
    else some m

def removeUsePoint : Option (RemoveUPResult × ResourceManager ι) :=
  (m.resource this).bind fun resource =>
    if resource.countUses = 0 then some (.error, m)
    else
      let m := m.modify this fun resource =>
        { resource with
          countUses := resource.countUses - 1
          usePoints := resource.usePoints - 1 }
      if resource.countUses - 1 = 0 ∧ resource.isDestroyed = false then
        if resource.isRegistered then some (.destroy, destroy m this)
        else (deleteResource m this).map fun m => (.delete, m)
      else some (.success, m)

def addUsePoint : Option (ResourceManager ι) :=
  (m.resource this).map fun _ => m.modify this fun resource =>
    { resource with
      countUses := resource.countUses + 1
      usePoints := resource.usePoints + 1 }

def setLifetime (lifetime : Int64) : ResourceManager ι :=
  m.modify this fun resource => { resource with lifetime }

def kill : Option (Bool × ResourceManager ι) :=
  (m.resource this).map fun resource =>
    if resource.countUses = 0 then
      (true, setLifetime (if resource.isDestroyed then m else destroy m this) this 0)
    else (false, m)

def forceDestroy : Option (Bool × ResourceManager ι) :=
  (m.resource this).map fun resource =>
    if resource.isForceDestroyed || resource.isDestroyed then (false, m)
    else
      let m := m.modify this fun resource => { resource with isForceDestroyed := true }
      (true, destroy m this)

def reviveResource : ResourceManager ι :=
  m.modify this fun resource =>
    { resource with isDestroyed := false, lifetime := resourceLifeTime }

end IResource

namespace ResourceManager

variable (m : ResourceManager ι)

def registerResource (pResource : ι) : Option (ResourceManager ι) :=
  (m.resource pResource).map fun resource =>
    if resource.resourcePath.isEmpty && resource.isFileResource then m
    else
      { m with resources := Function.update m.resources resource.resourceHashName
                ((m.resources resource.resourceHashName).add pResource resource) }.modify
        pResource fun resource => { resource with isRegistered := true }

def reviveResource (pResource : ι) : Option (Bool × ResourceManager ι) :=
  (m.resource pResource).map fun resource =>
    if resource.isDestroyed then
      if resource.isAllowedToRevive then
        if pResource ∈ m.destroyed then
          (true, IResource.reviveResource { m with destroyed := m.destroyed.erase pResource }
            pResource)
        else (false, m)
      else (false, m)
    else (true, m)

/-- The loop of `ResourceType::Find` over the copies, in the order of the set. -/
def findCopy : List ι → ResourceManager ι → Option (Option ι × ResourceManager ι)
  | [], m => some (none, m)
  | pResource :: order, m => (m.reviveResource pResource).bind fun (revived, m) =>
      if revived then some (some pResource, m) else findCopy order m

/-- `order` is the order of the set of copies. -/
def find (hashTypeName : UInt64) (id : StringAtom) (order : List ι) :
    Option (Option ι × ResourceManager ι) :=
  ((m.resources hashTypeName).copies id).elim (some (none, m)) fun copies =>
    if order.Perm copies then
      (findCopy order m).map fun (found, m) =>
        (found, found.elim m fun pResource => IResource.setLifetime m pResource resourceLifeTime)
    else none

/-- `CollectUnused` of all types, in the order of their sets. -/
def collectUnused : List ι → ResourceManager ι → Option (ResourceManager ι)
  | [], m => some m
  | pResource :: order, m => (m.resource pResource).bind fun resource =>
      collectUnused order (if resource.countUses > 0 || resource.isDestroyed then m
        else IResource.destroy m pResource)

/-- The life time of a resource of the queue that is destroyed. -/
def agedLifetime (resource : Resource) (gcDt : UInt64) : Int64 :=
  if resource.countUses > 0 then resourceLifeTime
  else if m.isLastResource resource then (resource.lifetime.toUInt64 - gcDt).toInt64
  else 0

/-- The loop of `GC` from a place of the queue on. It starts over when it has erased an entry. -/
def gcLoop (force : Bool) (gcDt : UInt64) : ℕ → ℕ → ResourceManager ι → Option (ResourceManager ι)
  | 0, _, _ => none
  | fuel + 1, i, m => m.destroyed[i]?.elim (some m) fun pResource =>
      (m.resource pResource).bind fun resource =>
        if resource.isDestroyed then
          let lifetime := m.agedLifetime resource gcDt
          let m := IResource.setLifetime m pResource lifetime
          let resourceAlive := !resource.isForceDestroyed && decide (lifetime > 0) && !force
          if resource.countUses > 0 || resourceAlive then gcLoop force gcDt fuel (i + 1) m
          else (m.remove pResource resource).bind fun m =>
            (IResource.deleteResource { m with destroyed := m.destroyed.eraseIdx i }
              pResource).bind fun m => gcLoop force gcDt fuel 0 m
        else gcLoop force gcDt fuel 0 { m with destroyed := m.destroyed.eraseIdx i }

/-- The turns that the loop of `GC` can take. -/
def gcFuel : ℕ := (m.destroyed.length + 1) * (m.destroyed.length + 1)

/-- `dirty` says that resources or watchers wait for a reload, and `order` is that of the sets. -/
def gc (dirty force : Bool) (gcDt : UInt64) (order : List ι) : Option (ResourceManager ι) :=
  if dirty || m.destroyed.isEmpty then some m
  else (if force then collectUnused order m else some m).bind fun m =>
    gcLoop force gcDt m.gcFuel 0 m

end ResourceManager

inductive ResourceCall (ι : Type) where
  | create (pResource : ι) (resourceHashName : UInt64) (resourceId resourcePath : StringAtom)
      (isFileResource isAllowedToRevive : Bool)
  | registerResource (pResource : ι)
  | addUsePoint (pResource : ι)
  | removeUsePoint (pResource : ι)
  | checkResourceUsage (pResource : ι)
  | kill (pResource : ι)
  | forceDestroy (pResource : ι)
  | find (hashTypeName : UInt64) (id : StringAtom) (order : List ι)
  | gc (dirty force : Bool) (gcDt : UInt64) (order : List ι)

namespace ResourceManager

def step (m : ResourceManager ι) : ResourceCall ι → Option (ResourceManager ι × Unit)
  | .create pResource resourceHashName resourceId resourcePath isFileResource isAllowedToRevive =>
      some ({ m with resource := Function.update m.resource pResource (some
        { resourceHashName, resourceId, resourcePath, isFileResource, isAllowedToRevive }) }, ())
  | .registerResource pResource => (m.registerResource pResource).map fun m => (m, ())
  | .addUsePoint pResource => (IResource.addUsePoint m pResource).map fun m => (m, ())
  | .removeUsePoint pResource => (IResource.removeUsePoint m pResource).map fun r => (r.2, ())
  | .checkResourceUsage pResource =>
      (IResource.checkResourceUsage m pResource).map fun m => (m, ())
  | .kill pResource => (IResource.kill m pResource).map fun r => (r.2, ())
  | .forceDestroy pResource => (IResource.forceDestroy m pResource).map fun r => (r.2, ())
  | .find hashTypeName id order => (m.find hashTypeName id order).map fun r => (r.2, ())
  | .gc dirty force gcDt order => (m.gc dirty force gcDt order).map fun m => (m, ())

end ResourceManager

end SRCommon
