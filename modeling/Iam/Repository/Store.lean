import Iam.Domain.Entities

/-!
# The relational store

The tables the repositories read and write, as PostgreSQL holds them after
`AutoMigrate`.  Every table is soft-deleted: GORM's `Delete` sets
`deleted_at`, and every query GORM builds skips such rows, while primary
keys, unique indexes and foreign keys still see them.  The foreign keys are
the ones `AutoMigrate` creates for the associations the models declare:
`resources.parent_id`, `policies.resource_id`, `bindings.policy_id`,
`bindings.role_id`, `conditions.binding_id` and both columns of
`role_permissions`.  Rows are kept in insertion order, which is the order an
unordered query returns them in.
-/

namespace Iam

/-- A row with GORM's soft-delete marker: `deleted` is `deleted_at IS NOT NULL`. -/
structure Row (α : Type) where
  val : α
  deleted : Bool
  deriving DecidableEq, Repr

structure RoleRecord where
  id : UUID
  name : GoString
  title : GoString
  description : GoString
  isCustom : Bool
  deriving DecidableEq, Repr

structure PolicyRecord where
  id : UUID
  resourceID : UUID
  etag : GoString
  version : Int
  deriving DecidableEq, Repr

structure Store where
  resources : List (Row Resource)
  permissions : List (Row Permission)
  roles : List (Row RoleRecord)
  /-- `role_permissions(role_id, permission_id)`, a join table without soft delete. -/
  rolePermissions : List (UUID × UUID)
  policies : List (Row PolicyRecord)
  bindings : List (Row BindingRecord)
  conditions : List (Row Condition)
  deriving DecidableEq, Repr

def Store.empty : Store := ⟨[], [], [], [], [], [], []⟩

namespace Table

variable {α : Type} (key : α → UUID)

def live (rows : List (Row α)) (id : UUID) : Option α :=
  (rows.find? fun r => !r.deleted && key r.val == id).map (·.val)

/-- Some row, live or soft-deleted, holds the key: what unique indexes and foreign keys see. -/
def holds (rows : List (Row α)) (id : UUID) : Bool := rows.any fun r => key r.val == id

/-- `Delete(&T{}, id)`: sets `deleted_at` on the live row with this id. -/
def softDelete (rows : List (Row α)) (id : UUID) : List (Row α) :=
  rows.map fun r => if key r.val == id then { r with deleted := true } else r

/--
`Save`: an `UPDATE` of the live row with this id; when it matches nothing,
`INSERT ... ON CONFLICT (id) DO UPDATE` of every column, which also clears
`deleted_at` of a soft-deleted row.
-/
def save (rows : List (Row α)) (v : α) : List (Row α) :=
  if holds key rows (key v) then rows.map fun r => if key r.val == key v then ⟨v, false⟩ else r
  else rows ++ [⟨v, false⟩]

end Table

/-- GORM's `setupReferences`: the ids of the saved associations become the foreign keys. -/
def Binding.setupReferences (b : Binding) : Binding :=
  { b with policyID := (b.policy.map (·.id)).getD b.policyID,
           roleID := (b.role.map (·.id)).getD b.roleID }

namespace Store

variable (s : Store)

def loadRole (r : RoleRecord) : Role :=
  { id := r.id, name := r.name, title := r.title, description := r.description,
    isCustom := r.isCustom,
    permissions := s.permissions.filterMap fun row =>
      if !row.deleted && (r.id, row.val.id) ∈ s.rolePermissions then some row.val else none }

def loadBinding (b : BindingRecord) : Binding :=
  { id := b.id, policyID := b.policyID, roleID := b.roleID, members := b.members,
    role := (Table.live RoleRecord.id s.roles b.roleID).map s.loadRole,
    condition := (s.conditions.find? fun c => !c.deleted && c.val.bindingID == b.id).map (·.val) }

/-- `Preload("Bindings")` and the nested preloads: the live bindings in table order. -/
def loadPolicy (p : PolicyRecord) : Policy :=
  { id := p.id, resourceID := p.resourceID, etag := p.etag, version := p.version,
    bindings := s.bindings.filterMap fun row =>
      if !row.deleted && row.val.policyID == p.id then some (s.loadBinding row.val) else none }

def resourceGetByID (id : UUID) : Option Resource := Table.live Resource.id s.resources id

def roleGetByID (id : UUID) : Option Role := (Table.live RoleRecord.id s.roles id).map s.loadRole

def permissionGetByIDs (ids : List UUID) : List Permission :=
  s.permissions.filterMap fun row => if !row.deleted && row.val.id ∈ ids then some row.val else none

def policyGetByID (id : UUID) : Option Policy :=
  (Table.live PolicyRecord.id s.policies id).map s.loadPolicy

def policyGetByResourceID (resourceID : UUID) : Option Policy :=
  (s.policies.find? fun r => !r.deleted && r.val.resourceID == resourceID).map (s.loadPolicy ·.val)

def bindingGetByID (id : UUID) : Option Binding :=
  (Table.live BindingRecord.id s.bindings id).map s.loadBinding

def principalArray (principal : GoString) : GoString := [91, 34] ++ principal ++ [34, 93]

/--
`members @> ?` with `principalArray principal` as the `jsonb` operand; `none`
when PostgreSQL cannot read that text as `jsonb`, which fails the statement.
-/
def membersContain (principal : GoString) : Option (GoString → Bool) :=
  if Json.jsonbAccepts (principalArray principal) then
    (Json.parse true (principalArray principal)).map fun b members =>
      ((Json.parse true members).map (·.jsonbContains b)).getD false
  else none

def bindingListByPrincipal (principal : GoString) (limit offset : Int) :
    Except DbError (List Binding) :=
  match membersContain principal with
  | none => .error .invalidInput
  | some has =>
    let rows := s.bindings.filter fun r => !r.deleted && has r.val.members
    let rows := if offset > 0 then rows.drop offset.toNat else rows
    let rows := if limit > 0 then rows.take limit.toNat else rows
    .ok (rows.map (s.loadBinding ·.val))

def bindingGetByPolicyAndPrincipal (policyID : UUID) (principal : GoString) :
    Except DbError (List Binding) :=
  match membersContain principal with
  | none => .error .invalidInput
  | some has =>
    .ok ((s.bindings.filter fun r => !r.deleted && r.val.policyID == policyID &&
      has r.val.members).map (s.loadBinding ·.val))

/--
The recursive part of the ancestor query: starting from a parent id, parents
joined while `deleted_at IS NULL`, nearest first.  `none` means the recursion
does not end; `fuel` counts the rows it may still add.
-/
def parentChain : Nat → Option UUID → Option (List Resource)
  | _, none => some []
  | fuel, some q =>
    match Table.live Resource.id s.resources q with
    | none => some []
    | some parent =>
      match fuel with
      | 0 => none
      | fuel + 1 => (parentChain fuel parent.parentID).map (parent :: ·)

/--
`resourceRepository.GetAncestors`: the anchor row (soft-deleted or not), the
recursive join over live parents, and `WHERE id != ?` on the result.  A
chain of live rows longer than the table repeats a row, so with one unit of
fuel per row `none` is exactly the query that runs forever.
-/
def getAncestors (id : UUID) : Option (List Resource) :=
  match s.resources.find? (·.val.id == id) with
  | none => some []
  | some row =>
    (s.parentChain s.resources.length row.val.parentID).map (·.filter (·.id != id))

/--
`Resource.GetAncestors(db)`: follows `ParentID` with `db.First`, which skips
soft-deleted rows; a parent it cannot find ends the walk with
`ErrRecordNotFound` and the ancestors found so far.  `none` is a walk that
never ends; `fuel` counts the parents it may still add.
-/
def walkParents : Nat → Resource → Option (List Resource × Option DbError)
  | fuel, r =>
    match r.parentID with
    | none => some ([], none)
    | some q =>
      match Table.live Resource.id s.resources q with
      | none => some ([], some .recordNotFound)
      | some parent =>
        match fuel with
        | 0 => none
        | fuel + 1 => (walkParents fuel parent).map fun p => (parent :: p.1, p.2)

def refersTo (holds : UUID → Bool) (self target : UUID) : Bool := target == self || holds target

def joinRows (roleID : UUID) (perms : List Permission) : Except DbError (List (UUID × UUID)) :=
  if perms.all fun p => Table.holds Permission.id s.permissions p.id then
    .ok ((perms.map fun p => (roleID, p.id)).foldl
      (fun acc row => if row ∈ acc then acc else acc ++ [row]) s.rolePermissions)
  else .error .foreignKeyViolation

def resourceCreate (r : Resource) : Except DbError Store :=
  if Table.holds Resource.id s.resources r.id then .error .uniqueViolation
  else if !(r.parentID.all (refersTo (Table.holds Resource.id s.resources) r.id)) then
    .error .foreignKeyViolation
  else .ok { s with resources := s.resources ++ [⟨r, false⟩] }

def resourceUpdate (r : Resource) : Except DbError Store :=
  if !(r.parentID.all (refersTo (Table.holds Resource.id s.resources) r.id)) then
    .error .foreignKeyViolation
  else .ok { s with resources := Table.save Resource.id s.resources r }

def resourceDelete (id : UUID) : Store :=
  { s with resources := Table.softDelete Resource.id s.resources id }

def permissionCreate (p : Permission) : Except DbError Store :=
  if Table.holds Permission.id s.permissions p.id ||
      s.permissions.any (·.val.name == p.name) then .error .uniqueViolation
  else .ok { s with permissions := s.permissions ++ [⟨p, false⟩] }

def RoleRecord.ofRole (r : Role) : RoleRecord := ⟨r.id, r.name, r.title, r.description, r.isCustom⟩

def roleCreate (r : Role) : Except DbError Store :=
  if Table.holds RoleRecord.id s.roles r.id || s.roles.any (·.val.name == r.name) then
    .error .uniqueViolation
  else do
    let join ← s.joinRows r.id r.permissions
    .ok { s with roles := s.roles ++ [⟨RoleRecord.ofRole r, false⟩], rolePermissions := join }

/-- `Save` of a role with its permissions: the join rows are upserted, never removed. -/
def roleUpdate (r : Role) : Except DbError Store :=
  if s.roles.any fun row => row.val.name == r.name && row.val.id != r.id then
    .error .uniqueViolation
  else do
    let join ← s.joinRows r.id r.permissions
    let roles := Table.save RoleRecord.id s.roles (RoleRecord.ofRole r)
    .ok { s with roles, rolePermissions := join }

def roleDelete (id : UUID) : Store := { s with roles := Table.softDelete RoleRecord.id s.roles id }

def PolicyRecord.ofPolicy (p : Policy) : PolicyRecord := ⟨p.id, p.resourceID, p.etag, p.version⟩

def policyCreate (p : Policy) : Except DbError Store :=
  if Table.holds PolicyRecord.id s.policies p.id ||
      s.policies.any (·.val.resourceID == p.resourceID) then .error .uniqueViolation
  else if !Table.holds Resource.id s.resources p.resourceID then .error .foreignKeyViolation
  else .ok { s with policies := s.policies ++ [⟨PolicyRecord.ofPolicy p, false⟩] }

def policyUpdate (p : Policy) : Except DbError Store :=
  if s.policies.any fun row => row.val.resourceID == p.resourceID && row.val.id != p.id then
    .error .uniqueViolation
  else if !Table.holds Resource.id s.resources p.resourceID then .error .foreignKeyViolation
  else .ok { s with policies := Table.save PolicyRecord.id s.policies (PolicyRecord.ofPolicy p) }

def policyDelete (id : UUID) : Store :=
  { s with policies := Table.softDelete PolicyRecord.id s.policies id }

def BindingRecord.ofBinding (b : Binding) : BindingRecord := ⟨b.id, b.policyID, b.roleID, b.members⟩

/-- The attached condition of a created binding: `ON CONFLICT (id) DO UPDATE SET binding_id`. -/
def saveCondition (c : Condition) : Except DbError (List (Row Condition)) :=
  if s.conditions.any fun row => row.val.bindingID == c.bindingID && row.val.id != c.id then
    .error .uniqueViolation
  else if Table.holds Condition.id s.conditions c.id then
    .ok (s.conditions.map fun row =>
      if row.val.id == c.id then ⟨{ row.val with bindingID := c.bindingID }, row.deleted⟩ else row)
  else .ok (s.conditions ++ [⟨c, false⟩])

/-- The binding row and its attached condition, once the associations are saved. -/
def bindingInsert (b : Binding) : Except DbError Store :=
  if Table.holds BindingRecord.id s.bindings b.id then .error .uniqueViolation
  else if !Table.holds PolicyRecord.id s.policies b.policyID ||
      !Table.holds RoleRecord.id s.roles b.roleID then .error .foreignKeyViolation
  else if !Json.jsonbAccepts b.members then .error .invalidInput
  else
    let s' := { s with bindings := s.bindings ++ [⟨BindingRecord.ofBinding b, false⟩] }
    match b.condition with
    | none => .ok s'
    | some c => do
      let conditions ← s'.saveCondition c
      .ok { s' with conditions }

/-- A belongs-to association, saved when it is present. -/
def saveAssoc {α : Type} (save : Store → α → Except DbError Store) : Option α → Except DbError Store
  | none => .ok s
  | some a => save s a

/-- `INSERT ... ON CONFLICT DO NOTHING`: a row that a unique index refuses is skipped. -/
def onConflictDoNothing (r : Except DbError Store) : Except DbError Store :=
  match r with
  | .error .uniqueViolation => .ok s
  | r => r

/-- The rows of a has-many association, one statement `ON CONFLICT (id) DO UPDATE`. -/
def upsertRows {α : Type} (key : α → UUID) (row : Store → α → Except DbError Store)
    (rows : List α) : Except DbError Store :=
  if (rows.map key).Nodup then rows.foldlM row s else .error .cardinalityViolation

/-- `UPDATE resources SET parent_id` on the rows of `r`'s id. -/
def setParentID (r : Resource) : Store :=
  { s with resources := s.resources.map fun row =>
      if row.val.id == r.id then { row with val := { row.val with parentID := r.parentID } }
      else row }

/-- `UPDATE bindings SET policy_id` on the rows of `r`'s id. -/
def setPolicyID (r : BindingRecord) : Store :=
  { s with bindings := s.bindings.map fun row =>
      if row.val.id == r.id then { row with val := { row.val with policyID := r.policyID } }
      else row }

/-- A child of `Resource.Children`: a new row, or `SET parent_id` on the row of its id. -/
def resourceUpsertParent (r : Resource) : Except DbError Store :=
  if Table.holds Resource.id s.resources r.id then
    if !(r.parentID.all (refersTo (Table.holds Resource.id s.resources) r.id)) then
      .error .foreignKeyViolation
    else .ok (s.setParentID r)
  else s.resourceCreate r

/-- A binding of `Policy.Bindings`: a new row, or `SET policy_id` on the row of its id. -/
def bindingUpsertPolicy (r : BindingRecord) : Except DbError Store :=
  if !Json.jsonbAccepts r.members then .error .invalidInput
  else if !Table.holds PolicyRecord.id s.policies r.policyID then .error .foreignKeyViolation
  else if Table.holds BindingRecord.id s.bindings r.id then .ok (s.setPolicyID r)
  else s.bindingInsert ⟨r.id, r.policyID, r.roleID, none, r.members, none, none⟩

/-- `Policy.Resource` saved: its `Parent`, the row under that parent, then its `Children`. -/
def resourceSaveAssoc (ra : ResourceAssoc) : Except DbError Store := do
  let s ← s.saveAssoc (fun s q => s.onConflictDoNothing (s.resourceCreate q)) ra.parent
  let parentID := match ra.parent with
    | none => ra.row.parentID
    | some q => some q.id
  let s ← s.onConflictDoNothing (s.resourceCreate { ra.row with parentID })
  s.upsertRows Resource.id (fun s c => s.resourceUpsertParent { c with parentID := some ra.row.id })
    ra.children

/-- `Binding.Policy` saved: its `Resource`, the policy row of that resource, then `Bindings`. -/
def policySaveAssoc (p : PolicyAssoc) : Except DbError Store := do
  let s ← s.saveAssoc resourceSaveAssoc p.resource
  let resourceID := match p.resource with
    | none => p.resourceID
    | some ra => ra.row.id
  let s ← s.onConflictDoNothing (s.policyCreate { p.toPolicy with resourceID })
  s.upsertRows BindingRecord.id (fun s r => s.bindingUpsertPolicy { r with policyID := p.id })
    p.bindings

/--
`Binding.Role` saved: the role row and its permissions `ON CONFLICT DO
NOTHING`, then the join rows, whose `role_id` must name a role row.
-/
def roleSaveAssoc (r : Role) : Except DbError Store := do
  let s ← s.onConflictDoNothing (s.roleCreate { r with permissions := [] })
  let s ← r.permissions.foldlM (fun s p => s.onConflictDoNothing (s.permissionCreate p)) s
  if r.permissions.isEmpty then .ok s
  else if !Table.holds RoleRecord.id s.roles r.id then .error .foreignKeyViolation
  else do .ok { s with rolePermissions := ← s.joinRows r.id r.permissions }

/--
`bindingRepository.Create`, one transaction: the belongs-to associations
`Policy` and `Role` first, then the binding under their ids.
-/
def bindingCreate (b : Binding) : Except DbError Store := do
  let s ← s.saveAssoc policySaveAssoc b.policy
  let s ← s.saveAssoc roleSaveAssoc b.role
  s.bindingInsert b.setupReferences

def bindingDelete (id : UUID) : Store :=
  { s with bindings := Table.softDelete BindingRecord.id s.bindings id }

end Store

def Resource.getAncestors (r : Resource) (s : Store) : Option (List Resource × Option DbError) :=
  s.walkParents s.resources.length r

end Iam
