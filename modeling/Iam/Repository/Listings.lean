import Iam.Repository.Store

/-!
# The listing reads

The `List` methods of the repositories and the `IAMService` calls that
forward to them.  Each filters the live rows of its table, then applies GORM's
`Offset` and `Limit`, each only when positive, so a page size or offset of
zero or below means no limit or no offset.  The joins name a second table by
a raw `JOIN`, to which GORM adds no `deleted_at` test: `ListByResourceID`
keeps the bindings of a soft-deleted policy, and `ListPolicies` the policies
of soft-deleted resources.
-/

namespace Iam

/-- `Offset(offset)` when positive, then `Limit(limit)` when positive. -/
def page {α : Type} (limit offset : Int) (rows : List α) : List α :=
  let rows := if offset > 0 then rows.drop offset.toNat else rows
  if limit > 0 then rows.take limit.toNat else rows

@[simp] theorem page_zero_zero {α : Type} (rows : List α) : page 0 0 rows = rows := rfl

namespace Store

variable (s : Store)

def resourceList (parentID : Option UUID) (resourceType : GoString) (limit offset : Int) :
    List Resource :=
  page limit offset (s.resources.filterMap fun row =>
    if !row.deleted && parentID.all (fun p => row.val.parentID == some p) &&
        (resourceType.isEmpty || row.val.type == resourceType) then some row.val else none)

def permissionGetByID (id : UUID) : Option Permission := Table.live Permission.id s.permissions id

def permissionList (service : GoString) (limit offset : Int) : List Permission :=
  page limit offset (s.permissions.filterMap fun row =>
    if !row.deleted && (service.isEmpty || row.val.service == service) then some row.val
    else none)

/-- `roleRepository.List`: without `includeCustom`, only the rows with `is_custom = false`. -/
def roleList (includeCustom : Bool) (limit offset : Int) : List Role :=
  page limit offset (s.roles.filterMap fun row =>
    if !row.deleted && (includeCustom || !row.val.isCustom) then some (s.loadRole row.val)
    else none)

/--
`policyRepository.List`: with a parent, the policies joined to a resource row,
live or not, whose `parent_id` is it.  Only `Bindings` is preloaded, so the
bindings come without their role or condition.
-/
def policyList (parentResourceID : Option UUID) (limit offset : Int) : List Policy :=
  page limit offset (s.policies.filterMap fun row =>
    if !row.deleted && parentResourceID.all (fun p => s.resources.any fun r =>
        r.val.id == row.val.resourceID && r.val.parentID == some p) then
      some { s.loadPolicy row.val with
        bindings :=
          (s.loadPolicy row.val).bindings.map ({ · with role := none, condition := none }) }
    else none)

/--
`bindingRepository.ListByResourceID`: live bindings joined to a policy row of
the resource, live or not.  `policies.id` is the primary key, so a binding
joins at most one row.
-/
def bindingListByResourceID (resourceID : UUID) (limit offset : Int) : List Binding :=
  page limit offset ((s.bindings.filter fun row => !row.deleted &&
    s.policies.any fun p => p.val.id == row.val.policyID && p.val.resourceID == resourceID).map
      (s.loadBinding ·.val))

/-- `IAMService.ListBindings`: by principal when one is given, and then the resource is not used. -/
def listBindings (resourceID : UUID) (principal : GoString) (pageSize offset : Int) :
    Except DbError (List Binding) :=
  if principal != [] then s.bindingListByPrincipal principal pageSize offset
  else .ok (s.bindingListByResourceID resourceID pageSize offset)

def listRoles (includePredefined : Bool) (pageSize offset : Int) : List Role :=
  s.roleList includePredefined pageSize offset

end Store

end Iam
