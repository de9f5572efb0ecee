import Iam.Service.Evaluator

/-!
# The IAM service façade

`IAMService` passes permission checks to the evaluator and implements the
mutations: resource, permission and role management through the
repositories, and the policy and binding operations, which also clear the
decision cache.  `UpdatePolicy` and `DeletePolicy` compare the caller's etag
with the one they read, in Go, before writing.  Each operation is a `Prog`;
`Request` names an operation with its arguments and `Response` carries what
it returns.
-/

namespace Iam

open Prog

def dbErr {α : Type} (r : Except DbError α) : Except GoError α := r.mapError .db

def createResource (resourceType name : GoString) (parentID : Option UUID)
    (attributes : StringMap) : Prog (Except GoError Resource) := do
  let (resource, res) ← ResourceRepository.create
    { id := UUID.nil, type := resourceType, name, parentID, attributes }
  match res with
  | .error err => return .error (.wrap "failed to create resource" (.db err))
  | .ok () => return .ok resource

def getResource (id : UUID) : Prog (Except GoError (Option Resource)) := do
  return dbErr (← ResourceRepository.getByID id)

def updateResource (id : UUID) (name : GoString) (attributes : StringMap) :
    Prog (Except GoError Resource) := do
  match ← ResourceRepository.getByID id with
  | .error err => return .error (.db err)
  | .ok none => return .error (.text "resource not found")
  | .ok (some resource) =>
    let resource := { resource with name, attributes }
    match ← ResourceRepository.update resource with
    | .error err => return .error (.wrap "failed to update resource" (.db err))
    | .ok () => return .ok resource

def deleteResource (id : UUID) : Prog (Except GoError Unit) := do
  return dbErr (← ResourceRepository.delete id)

def createPermission (name description service : GoString) :
    Prog (Except GoError Permission) := do
  let (permission, res) ← PermissionRepository.create { id := UUID.nil, name, description, service }
  match res with
  | .error err => return .error (.wrap "failed to create permission" (.db err))
  | .ok () => return .ok permission

def createRole (name title description : GoString) (permissionIDs : List UUID) :
    Prog (Except GoError Role) := do
  match ← PermissionRepository.getByIDs permissionIDs with
  | .error err => return .error (.wrap "failed to get permissions" (.db err))
  | .ok permissions =>
    let (role, res) ← RoleRepository.create
      { id := UUID.nil, name, title, description, permissions, isCustom := true }
    match res with
    | .error err => return .error (.wrap "failed to create role" (.db err))
    | .ok () => return .ok role

def getRole (id : UUID) : Prog (Except GoError (Option Role)) := do
  return dbErr (← RoleRepository.getByID id)

def updateRole (id : UUID) (title description : GoString) (permissionIDs : List UUID) :
    Prog (Except GoError Role) := do
  match ← RoleRepository.getByID id with
  | .error err => return .error (.db err)
  | .ok none => return .error (.text "role not found")
  | .ok (some role) =>
    match ← PermissionRepository.getByIDs permissionIDs with
    | .error err => return .error (.wrap "failed to get permissions" (.db err))
    | .ok permissions =>
      let role := { role with title, description, permissions }
      match ← RoleRepository.update role with
      | .error err => return .error (.wrap "failed to update role" (.db err))
      | .ok () => return .ok role

def deleteRole (id : UUID) : Prog (Except GoError Unit) := do
  return dbErr (← RoleRepository.delete id)

/-- The loop `bindings[i].PolicyID = policy.ID; bindingRepo.Create(&bindings[i])`. -/
def createBindings (policyID : UUID) : List Binding → Prog (Except GoError Unit)
  | [] => return .ok ()
  | b :: rest => do
    let (_, res) ← BindingRepository.create { b with policyID }
    match res with
    | .error err => return .error (.wrap "failed to create binding" (.db err))
    | .ok () => createBindings policyID rest

def deleteBindings : List Binding → Prog (Except GoError Unit)
  | [] => return .ok ()
  | b :: rest => do
    match ← BindingRepository.delete b.id with
    | .error err => return .error (.wrap "failed to delete binding" (.db err))
    | .ok () => deleteBindings rest

def newPolicy (resourceID : UUID) : Policy :=
  { id := UUID.nil, resourceID, bindings := [], etag := [], version := 1 }

def createPolicy (resourceID : UUID) (bindings : List Binding) :
    Prog (Except GoError (Option Policy)) := do
  let (policy, res) ← PolicyRepository.create (newPolicy resourceID)
  match res with
  | .error err => return .error (.wrap "failed to create policy" (.db err))
  | .ok () =>
    match ← createBindings policy.id bindings with
    | .error err => return .error err
    | .ok () =>
      cacheClear
      return dbErr (← PolicyRepository.getByID policy.id)

def getPolicy (resourceID : UUID) : Prog (Except GoError (Option Policy)) := do
  return dbErr (← PolicyRepository.getByResourceID resourceID)

/--
`UpdatePolicy`: read the policy, compare etags, delete the bindings it read,
create the new ones, save the policy (new etag, next version), clear the
cache, and read the policy back.
-/
def updatePolicy (resourceID : UUID) (bindings : List Binding) (etag : GoString) :
    Prog (Except GoError (Option Policy)) := do
  match ← PolicyRepository.getByResourceID resourceID with
  | .error err => return .error (.db err)
  | .ok none => return .error (.text "policy not found")
  | .ok (some policy) =>
    if policy.etag != etag then return .error (.text "policy has been modified, etag mismatch")
    match ← deleteBindings policy.bindings with
    | .error err => return .error err
    | .ok () =>
      match ← createBindings policy.id bindings with
      | .error err => return .error err
      | .ok () =>
        let (_, res) ← PolicyRepository.update policy
        match res with
        | .error err => return .error (.wrap "failed to update policy" (.db err))
        | .ok () =>
          cacheClear
          return dbErr (← PolicyRepository.getByID policy.id)

/-- `DeletePolicy` clears the cache before it deletes. -/
def deletePolicy (resourceID : UUID) (etag : GoString) : Prog (Except GoError Unit) := do
  match ← PolicyRepository.getByResourceID resourceID with
  | .error err => return .error (.db err)
  | .ok none => return .error (.text "policy not found")
  | .ok (some policy) =>
    if policy.etag != etag then return .error (.text "policy has been modified, etag mismatch")
    cacheClear
    return dbErr (← PolicyRepository.delete policy.id)

def createBindingIn (policy : Policy) (roleID : UUID) (members : List GoString) :
    Prog (Except GoError (Option Binding)) := do
  let (binding, res) ← BindingRepository.create
    { id := UUID.nil, policyID := policy.id, roleID, role := none,
      members := Json.marshalStrings members, condition := none }
  match res with
  | .error err => return .error (.wrap "failed to create binding" (.db err))
  | .ok () =>
    cacheClear
    return dbErr (← BindingRepository.getByID binding.id)

/--
`CreateBinding`: the policy of the resource, created if missing, gets a
binding with the marshalled members.  The condition argument only has its
`BindingID` set; it is not saved.  `json.Marshal` of a `[]string` cannot fail.
-/
def createBinding (resourceID roleID : UUID) (members : List GoString)
    (_condition : Option Condition) : Prog (Except GoError (Option Binding)) := do
  match ← PolicyRepository.getByResourceID resourceID with
  | .error err => return .error (.db err)
  | .ok (some policy) => createBindingIn policy roleID members
  | .ok none =>
    let (policy, res) ← PolicyRepository.create (newPolicy resourceID)
    match res with
    | .error err => return .error (.wrap "failed to create policy" (.db err))
    | .ok () => createBindingIn policy roleID members

/-- `DeleteBinding` clears the cache before it deletes. -/
def deleteBinding (id : UUID) : Prog (Except GoError Unit) := do
  cacheClear
  return dbErr (← BindingRepository.delete id)

inductive Request where
  | checkPermission (principal : GoString) (resourceID : UUID) (permission : GoString)
      (context : Context)
  | getEffectivePermissions (principal : GoString) (resourceID : UUID)
  | createResource (resourceType name : GoString) (parentID : Option UUID)
      (attributes : StringMap)
  | getResource (id : UUID)
  | updateResource (id : UUID) (name : GoString) (attributes : StringMap)
  | deleteResource (id : UUID)
  | createPermission (name description service : GoString)
  | createRole (name title description : GoString) (permissionIDs : List UUID)
  | getRole (id : UUID)
  | updateRole (id : UUID) (title description : GoString) (permissionIDs : List UUID)
  | deleteRole (id : UUID)
  | createPolicy (resourceID : UUID) (bindings : List Binding)
  | getPolicy (resourceID : UUID)
  | updatePolicy (resourceID : UUID) (bindings : List Binding) (etag : GoString)
  | deletePolicy (resourceID : UUID) (etag : GoString)
  | createBinding (resourceID roleID : UUID) (members : List GoString)
      (condition : Option Condition)
  | deleteBinding (id : UUID)
  deriving DecidableEq, Repr

inductive Response where
  | decision (d : Decision)
  | effective (r : Except GoError (List GoString × List GoString))
  | resource (r : Except GoError Resource)
  | found (r : Except GoError (Option Resource))
  | permission (r : Except GoError Permission)
  | role (r : Except GoError Role)
  | foundRole (r : Except GoError (Option Role))
  | policy (r : Except GoError (Option Policy))
  | binding (r : Except GoError (Option Binding))
  | done (r : Except GoError Unit)

def Response.failed : Response → Bool
  | .decision d => d.err.isSome
  | .effective r => !r.toBool
  | .resource r => !r.toBool
  | .found r => !r.toBool
  | .permission r => !r.toBool
  | .role r => !r.toBool
  | .foundRole r => !r.toBool
  | .policy r => !r.toBool
  | .binding r => !r.toBool
  | .done r => !r.toBool

def Request.prog : Request → Prog Response
  | .checkPermission p r x ctx => .decision <$> Iam.checkPermission p r x ctx
  | .getEffectivePermissions p r => .effective <$> Iam.getEffectivePermissions p r
  | .createResource t n parent attrs => .resource <$> Iam.createResource t n parent attrs
  | .getResource id => .found <$> Iam.getResource id
  | .updateResource id n attrs => .resource <$> Iam.updateResource id n attrs
  | .deleteResource id => .done <$> Iam.deleteResource id
  | .createPermission n d svc => .permission <$> Iam.createPermission n d svc
  | .createRole n t d ps => .role <$> Iam.createRole n t d ps
  | .getRole id => .foundRole <$> Iam.getRole id
  | .updateRole id t d ps => .role <$> Iam.updateRole id t d ps
  | .deleteRole id => .done <$> Iam.deleteRole id
  | .createPolicy r bs => .policy <$> Iam.createPolicy r bs
  | .getPolicy r => .policy <$> Iam.getPolicy r
  | .updatePolicy r bs e => .policy <$> Iam.updatePolicy r bs e
  | .deletePolicy r e => .done <$> Iam.deletePolicy r e
  | .createBinding r role ms c => .binding <$> Iam.createBinding r role ms c
  | .deleteBinding id => .done <$> Iam.deleteBinding id

end Iam
