import Iam.Repository.Writes

/-!
# The repository reads and link edits the service does not call

`roleRepository.AddPermissions` and `RemovePermissions` load the live role by
`First`, failing with `ErrRecordNotFound`, and the live permissions with the
given ids by `Find`; then the `Permissions` association appends their
`role_permissions` rows, each once, or deletes them.  A row that names a
soft-deleted permission is out of their reach: `Find` skips the permission.
`GetPermissions` preloads the live permissions of the live role.  The
`GetByName` methods are `First` of the live row with the name, and
`permissionRepository.Delete` is a soft delete.
-/

namespace Iam

namespace Store

variable (s : Store)

def roleFirst (roleID : UUID) : Except DbError RoleRecord :=
  match Table.live RoleRecord.id s.roles roleID with
  | some r => .ok r
  | none => .error .recordNotFound

/-- `roleRepository.AddPermissions`: the association appends the permissions found. -/
def roleAddPermissions (roleID : UUID) (permissionIDs : List UUID) : Except DbError Store := do
  let _ ← s.roleFirst roleID
  let join ← s.joinRows roleID (s.permissionGetByIDs permissionIDs)
  .ok { s with rolePermissions := join }

/-- `roleRepository.RemovePermissions`: the association deletes the permissions found. -/
def roleRemovePermissions (roleID : UUID) (permissionIDs : List UUID) :
    Except DbError Store := do
  let _ ← s.roleFirst roleID
  let found := (s.permissionGetByIDs permissionIDs).map (·.id)
  .ok { s with
    rolePermissions :=
      s.rolePermissions.filter fun row => !(row.1 == roleID && found.contains row.2) }

@[simp] theorem roleFirst_rolePermissions (l : List (UUID × UUID)) (roleID : UUID) :
    ({ s with rolePermissions := l } : Store).roleFirst roleID = s.roleFirst roleID := rfl

@[simp] theorem permissionGetByIDs_rolePermissions (l : List (UUID × UUID)) (ids : List UUID) :
    ({ s with rolePermissions := l } : Store).permissionGetByIDs ids = s.permissionGetByIDs ids :=
  rfl

def roleGetPermissions (roleID : UUID) : Except DbError (List Permission) :=
  (s.roleFirst roleID).map fun r => (s.loadRole r).permissions

def roleGetByName (name : GoString) : Option Role :=
  (s.roles.find? fun row => !row.deleted && row.val.name == name).map (s.loadRole ·.val)

def permissionGetByName (name : GoString) : Option Permission :=
  (s.permissions.find? fun row => !row.deleted && row.val.name == name).map (·.val)

def permissionDelete (id : UUID) : Store :=
  { s with permissions := Table.softDelete Permission.id s.permissions id }

end Store

end Iam
