import Iam.Domain.Json

/-!
# Domain entities

The GORM models of `internal/domain` as the repositories load them: a role
with its permissions, a binding with its role and condition, a policy with
its bindings.  A binding a caller sends may also carry the associations GORM
saves with it: its `Role`, and its `Policy` with that policy's `Resource`
(with `Parent` and `Children`) and `Bindings`.  Associations of those
associated rows, and timestamps, are left out.
-/

namespace Iam

structure Permission where
  id : UUID
  name : GoString
  description : GoString
  service : GoString
  deriving DecidableEq, Repr

structure Role where
  id : UUID
  name : GoString
  title : GoString
  description : GoString
  permissions : List Permission
  isCustom : Bool
  deriving DecidableEq, Repr

def Role.hasPermission (r : Role) (permissionName : GoString) : Bool :=
  r.permissions.any fun perm => perm.name == permissionName

structure Condition where
  id : UUID
  bindingID : UUID
  title : GoString
  description : GoString
  expression : GoString
  deriving DecidableEq, Repr

structure Resource where
  id : UUID
  type : GoString
  name : GoString
  parentID : Option UUID
  attributes : StringMap
  deriving DecidableEq, Repr

structure BindingRecord where
  id : UUID
  policyID : UUID
  roleID : UUID
  members : GoString
  deriving DecidableEq, Repr

/-- `Policy.Resource` as a binding's policy carries it, with its `Parent` and `Children`. -/
structure ResourceAssoc where
  row : Resource
  parent : Option Resource
  children : List Resource
  deriving DecidableEq, Repr

/-- `Binding.Policy`: the columns of a policy, its `Resource`, and its `Bindings` as rows. -/
structure PolicyAssoc where
  id : UUID
  resourceID : UUID
  etag : GoString
  version : Int
  resource : Option ResourceAssoc
  bindings : List BindingRecord
  deriving DecidableEq, Repr

structure Binding where
  id : UUID
  policyID : UUID
  roleID : UUID
  role : Option Role
  /-- The `jsonb` array of principals, as bytes. -/
  members : GoString
  condition : Option Condition
  policy : Option PolicyAssoc := none
  deriving DecidableEq, Repr

/-- A binding that carries neither a `Role` nor a `Policy` for GORM to save with it. -/
def Binding.plain (b : Binding) : Bool := b.role.isNone && b.policy.isNone

theorem Binding.plain_iff {b : Binding} : b.plain = true ↔ b.role = none ∧ b.policy = none := by
  simp [Binding.plain]

/-- `b'` carries no association that `b` does not: what the `BeforeCreate` hooks keep. -/
def Binding.CarriesAtMost (b' b : Binding) : Prop :=
  (b.policy = none → b'.policy = none) ∧ (b.role = none → b'.role = none)

theorem Binding.CarriesAtMost.plain {b' b : Binding} (h : b'.CarriesAtMost b)
    (hb : b.plain = true) : b'.plain = true := by
  rw [Binding.plain_iff] at hb ⊢
  exact ⟨h.2 hb.1, h.1 hb.2⟩

def Binding.getMembers (b : Binding) : Option (List GoString) :=
  Json.unmarshalStrings b.members

/-- `Binding.HasMember`: byte-exact membership, false when the JSON is not a string list. -/
def Binding.hasMember (b : Binding) (principal : GoString) : Bool :=
  match b.getMembers with
  | none => false
  | some members => members.any fun member => member == principal

structure Policy where
  id : UUID
  resourceID : UUID
  bindings : List Binding
  etag : GoString
  version : Int
  deriving DecidableEq, Repr

def PolicyAssoc.toPolicy (p : PolicyAssoc) : Policy := ⟨p.id, p.resourceID, [], p.etag, p.version⟩

abbrev Context := StringMap

theorem Role.hasPermission_iff (r : Role) (x : GoString) :
    r.hasPermission x = true ↔ ∃ perm ∈ r.permissions, perm.name = x := by
  simp [Role.hasPermission]

theorem Binding.hasMember_iff (b : Binding) (p : GoString) :
    b.hasMember p = true ↔ ∃ members, b.getMembers = some members ∧ p ∈ members := by
  unfold Binding.hasMember
  cases b.getMembers with
  | none => simp
  | some members => simp [List.any_eq_true]

end Iam
