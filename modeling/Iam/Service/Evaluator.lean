import Iam.Service.Prog
import Iam.Service.Cache

/-!
# The permission evaluator

`permissionEvaluator.CheckPermission` probes the cache, resolves the
resource and its ancestors, and walks that chain nearest first, asking each
resource's policy for a binding that names the principal, passes the
condition hook and has a role with the permission.  The first grant is
cached; denials are not.  `GetEffectivePermissions` walks the same chain and
takes the union of the roles and permissions of every binding naming the
principal.

The walks are written over an arbitrary condition hook `evaluate`; the code
runs them with `evaluateCondition`.
-/

namespace Iam

open Prog

structure Decision where
  allowed : Bool
  reason : GoString
  err : Option GoError
  deriving DecidableEq, Repr

/--
`evaluateCondition`.  The CEL integration is a TODO in the source: an empty
expression and any other expression both pass.
-/
def evaluateCondition (condition : Condition) (_context : Context) : Bool :=
  if condition.expression = [] then true else true

/-- `fmt.Sprintf("Permission granted via role '%s' on resource '%s'", name, resourceID)`. -/
def grantReason (roleName : GoString) (resourceID : UUID) : GoString :=
  lit "Permission granted via role '" ++ roleName ++ lit "' on resource '" ++
    UUID.string resourceID ++ lit "'"

section Walk

variable (evaluate : Condition → Context → Bool)

def Binding.grants (principal permission : GoString) (context : Context) (b : Binding) : Bool :=
  b.hasMember principal && (b.condition.all fun c => evaluate c context) &&
    b.role.any fun role => role.hasPermission permission

def matchBindings (principal : GoString) (resourceID : UUID) (permission : GoString)
    (context : Context) : List Binding → Option GoString
  | [] => none
  | binding :: rest =>
    if !binding.hasMember principal then matchBindings principal resourceID permission context rest
    else if binding.condition.any fun c => !evaluate c context then
      matchBindings principal resourceID permission context rest
    else match binding.role with
      | some role =>
        if role.hasPermission permission then some (grantReason role.name resourceID)
        else matchBindings principal resourceID permission context rest
      | none => matchBindings principal resourceID permission context rest

def checkResourcePermissionWith (principal : GoString) (resourceID : UUID)
    (permission : GoString) (context : Context) : Prog Decision := do
  match ← PolicyRepository.getByResourceID resourceID with
  | .error err => return ⟨false, lit "Error fetching policy", some (.db err)⟩
  | .ok none => return ⟨false, lit "No policy found for resource", none⟩
  | .ok (some policy) =>
    match matchBindings evaluate principal resourceID permission context policy.bindings with
    | some reason => return ⟨true, reason, none⟩
    | none => return ⟨false, lit "No matching binding found", none⟩

def checkChain (principal permission : GoString) (context : Context) (cacheKey : GoString) :
    List UUID → Prog Decision
  | [] => return ⟨false, lit "Permission denied: no matching policy found", none⟩
  | resID :: rest => do
    let d ← checkResourcePermissionWith evaluate principal resID permission context
    match d.err with
    | some err => return ⟨false, d.reason, some err⟩
    | none =>
      if d.allowed then
        cacheSet cacheKey true
        return ⟨true, d.reason, none⟩
      else checkChain principal permission context cacheKey rest

def checkPermissionWith (principal : GoString) (resourceID : UUID) (permission : GoString)
    (context : Context) : Prog Decision := do
  let cacheKey := generateCacheKey principal (UUID.string resourceID) permission
  if (← cacheGet cacheKey) = some true then
    return ⟨true, lit "Permission granted (cached)", none⟩
  match ← ResourceRepository.getByID resourceID with
  | .error err => return ⟨false, lit "Error fetching resource", some (.db err)⟩
  | .ok none => return ⟨false, lit "Resource not found", none⟩
  | .ok (some _) =>
    match ← ResourceRepository.getAncestors resourceID with
    | .error err => return ⟨false, lit "Error fetching resource ancestors", some (.db err)⟩
    | .ok ancestors =>
      checkChain evaluate principal permission context cacheKey
        (resourceID :: ancestors.map (·.id))

end Walk

def checkPermission (principal : GoString) (resourceID : UUID) (permission : GoString)
    (context : Context) : Prog Decision :=
  checkPermissionWith evaluateCondition principal resourceID permission context

/-- Adding a key to a `map[string]bool` used as a set; keys in insertion order. -/
def insertKey (k : GoString) (m : List GoString) : List GoString := if k ∈ m then m else m ++ [k]

def collectBindings (principal : GoString) :
    List Binding → List GoString × List GoString → List GoString × List GoString
  | [], acc => acc
  | binding :: rest, (perms, roles) =>
    if !binding.hasMember principal then collectBindings principal rest (perms, roles)
    else match binding.role with
      | some role =>
        collectBindings principal rest
          (role.permissions.foldl (fun m perm => insertKey perm.name m) perms,
            insertKey role.name roles)
      | none => collectBindings principal rest (perms, roles)

/-- The loop over the chain in `GetEffectivePermissions`; a failed policy fetch is skipped. -/
def collectChain (principal : GoString) :
    List UUID → List GoString × List GoString → Prog (List GoString × List GoString)
  | [], acc => return acc
  | resID :: rest, acc => do
    match ← PolicyRepository.getByResourceID resID with
    | .error _ => collectChain principal rest acc
    | .ok none => collectChain principal rest acc
    | .ok (some policy) =>
      collectChain principal rest (collectBindings principal policy.bindings acc)

def getEffectivePermissions (principal : GoString) (resourceID : UUID) :
    Prog (Except GoError (List GoString × List GoString)) := do
  match ← ResourceRepository.getByID resourceID with
  | .error err => return .error (.db err)
  | .ok none => return .error (.text "resource not found")
  | .ok (some _) =>
    match ← ResourceRepository.getAncestors resourceID with
    | .error err => return .error (.db err)
    | .ok ancestors =>
      return .ok (← collectChain principal (resourceID :: ancestors.map (·.id)) ([], []))

end Iam
