import Iam.Runtime.Schedule
import Iam.Repository.Listings
import Iam.Properties.RoleEdits

/-!
# Every role is custom

`CreateRole` marks the role it creates custom, and `UpdateRole` saves the
role it read with the mark it had.  The one other writer of roles is GORM,
which inserts the `Role` a binding sent to `CreatePolicy` or `UpdatePolicy`
carries with the mark the caller gave it.  So in every world reached with no
such binding every role row, live or soft-deleted, is custom, and
`ListRoles(false, …)`, whose flag the repository takes as `includeCustom` and
which then selects `is_custom = false`, lists no role, whatever its page.

`UpdateRole` writes back a role it was given by a read, so the argument is not
about its calls alone: a program keeps the invariant when each of its calls
does, given that every role a read returns is custom (`Prog.Sat` with
`Call.LoadsCustom` as the admissible replies).
-/

namespace Iam

open Prog

namespace Store

def RolesCustom (s : Store) : Prop := ∀ row ∈ s.roles, row.val.isCustom = true

theorem empty_rolesCustom : Store.empty.RolesCustom := by simp [RolesCustom, Store.empty]

theorem RolesCustom.roleGetByID {s : Store} (hs : s.RolesCustom) {id : UUID} {role : Role}
    (h : s.roleGetByID id = some role) : role.isCustom = true := by
  obtain ⟨r, hr, rfl⟩ := Option.map_eq_some'.1 h
  exact hs _ (Table.live_eq_some hr).1

end Store

def Call.SavesCustom : Call → Prop
  | .roleCreate r | .roleUpdate r => r.isCustom = true
  | .bindingCreate b => b.role = none
  | _ => True

def Call.LoadsCustom : (c : Call) → c.Reply → Prop
  | .roleGetByID _, r => ∀ role, r = .ok (some role) → role.isCustom = true
  | _, _ => True

def Call.SavesRole (C U : Role → Prop) (B : Binding → Prop) : Call → Prop
  | .roleCreate r => C r
  | .roleUpdate r => U r
  | .bindingCreate b => B b
  | _ => True

def Call.LoadsRole (L : Role → Prop) : (c : Call) → c.Reply → Prop
  | .roleGetByID _, r => ∀ role, r = .ok (some role) → L role
  | _, _ => True

namespace World

variable (env : Env) (w : World)

theorem perform_rolesCustom {c : Call} (hc : c.SavesCustom) (hs : w.store.RolesCustom) :
    (w.perform env c).2.store.RolesCustom := by
  cases hwr : c.writesRoles
  · have h := perform_roleTables env w hwr
    simp only [Store.roleTables, Prod.mk.injEq] at h
    rw [Store.RolesCustom, h.1]; exact hs
  cases c <;> simp only [Call.writesRoles, Bool.false_eq_true] at hwr <;>
    refine write_inv env w hs fun s' h row hrow => ?_
  case roleCreate r =>
    obtain ⟨-, _, -, rfl⟩ := Store.roleCreate_eq_ok.1 h
    rcases List.mem_append.1 hrow with hrow | hrow
    · exact hs row hrow
    · rw [List.mem_singleton.1 hrow]; exact hc
  case roleUpdate r =>
    obtain ⟨-, _, -, rfl⟩ := Store.roleUpdate_eq_ok.1 h
    rcases Table.mem_save hrow with hrow | hrow
    · exact hs row hrow
    · rw [hrow]; exact hc
  case roleDelete id =>
    cases h
    obtain ⟨row', hrow', hv⟩ := Table.mem_softDelete hrow
    exact hv ▸ hs row' hrow'
  case permissionCreate p =>
    obtain ⟨-, rfl⟩ := Store.permissionCreate_eq_ok.1 h
    exact hs row hrow
  case bindingCreate b => simp [show b.role = none from hc] at hwr

theorem perform_loadsCustom (c : Call) (hs : w.store.RolesCustom) :
    c.LoadsCustom (w.perform env c).1 := by
  cases c
  case roleGetByID id =>
    intro role h
    exact hs.roleGetByID (read_eq_ok env w h).symm
  all_goals trivial

end World

theorem sat_savesRole {C U L : Role → Prop} {B : Binding → Prop}
    (hC : ∀ r : Role, r.isCustom = true → C r)
    (hU : ∀ role title description permissions, L role →
      U { role with title, description, permissions })
    (hB : ∀ b : Binding, b.plain = true → B b) (req : Request)
    (hsent : ∀ b ∈ req.sentBindings, ∀ b' : Binding, b'.CarriesAtMost b → B b') :
    Sat (Call.LoadsRole L) (Call.SavesRole C U B) (fun _ => True) req.prog := by
  cases req <;> simp only [Request.prog, sat_map_iff]
  case checkPermission =>
    exact Only.sat (only_checkPermissionWith (P := Call.SavesRole C U B) (fun _ => trivial)
      (fun _ => trivial) (fun _ => trivial) (fun _ => trivial) _ _ _ trivial _ _)
  case getEffectivePermissions =>
    exact Only.sat (only_getEffectivePermissions (P := Call.SavesRole C U B) (fun _ => trivial)
      (fun _ => trivial) (fun _ => trivial) _ _)
  case createPolicy =>
    exact Only.sat (only_createPolicy (P := Call.SavesRole C U B) trivial (fun _ => trivial)
      trivial (fun _ => trivial) _ _ fun b hb b' hc _ => hsent b hb b' hc)
  case updatePolicy =>
    exact Only.sat (only_updatePolicy (P := Call.SavesRole C U B) (fun _ => trivial) trivial
      (fun _ => trivial) (fun _ => trivial) trivial (fun _ => trivial) _ _ _
      fun b hb b' hc _ => hsent b hb b' hc)
  case createBinding =>
    exact Only.sat (only_createBinding (P := Call.SavesRole C U B) (fun _ => trivial) trivial
      (fun _ => trivial) (fun b h _ => hB b h) trivial (fun _ => trivial) _ _ _ _)
  all_goals simp +contextual [-sat_call, sat_call_forallReply, sat_ite, Iam.createResource,
    getResource, Iam.updateResource, deleteResource, createPermission, createRole, getRole,
    updateRole, deleteRole, getPolicy, deletePolicy, deleteBinding, ResourceRepository.create,
    ResourceRepository.getByID, ResourceRepository.update, ResourceRepository.delete,
    PermissionRepository.create, PermissionRepository.getByIDs, RoleRepository.create,
    RoleRepository.getByID, RoleRepository.update, RoleRepository.delete,
    PolicyRepository.getByResourceID, PolicyRepository.delete, BindingRepository.delete,
    Resource.beforeCreate, Permission.beforeCreate, Role.beforeCreate, freshID, newUUID,
    cacheClear, lift, Call.ForallReply, Call.SavesRole, Call.LoadsRole, hC, hU]

theorem sat_savesCustom (req : Request) (hreq : req.NoRoleAssoc) :
    Sat Call.LoadsCustom Call.SavesCustom (fun _ => True) req.prog :=
  (sat_savesRole (B := fun b => b.role = none) (fun _ h => h) (fun _ _ _ _ h => h)
    (fun _ h => (Binding.plain_iff.1 h).1) req fun b hb _ hc => hc.2 (hreq b hb)).imp
    (fun c h => by cases c <;> exact h) (fun c _ h => by cases c <;> exact h)

end Iam
