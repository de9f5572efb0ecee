import Iam.Runtime.Reach
import Iam.Repository.Hierarchy
import Iam.Repository.RoleLinks

/-!
# Editing a role

`UpdateRole` loads the role, looks up the permissions it is given, and saves
the role with them.  GORM's `Save` upserts a `role_permissions` row for each
permission of the role and deletes none, so after a successful call the role
holds the live permissions it held before as well as those asked for
(`updateRole_permissions`): `UpdateRole` can add a permission to a role but
never take one away.  The repository's `AddPermissions` and `RemovePermissions`
edit the links themselves: removing what was just added takes away exactly the
permissions with those ids, links the role held before included.

`CreateRole` inserts the role with a link to each live permission it found:
from a reachable world, with a new name and a new id, it succeeds and
`GetRole` reads back the role it returned (`createRole_creates`).  The links
of a new id are its own because every link names a role row (`LinksHeld`),
which holds since a link is only ever written with its role.
-/

namespace Iam

open Prog

namespace Store

variable {s : Store}

theorem mem_permissionGetByIDs {ids : List UUID} {p : Permission} :
    p ∈ s.permissionGetByIDs ids ↔
      ∃ row ∈ s.permissions, row.deleted = false ∧ row.val.id ∈ ids ∧ row.val = p := by
  simp [permissionGetByIDs, and_assoc]

@[simp] theorem loadRole_id (r : RoleRecord) : (s.loadRole r).id = r.id := rfl

theorem mem_loadRole_permissions {r : RoleRecord} {p : Permission} :
    p ∈ (s.loadRole r).permissions ↔ ∃ row ∈ s.permissions, row.deleted = false ∧
      (r.id, row.val.id) ∈ s.rolePermissions ∧ row.val = p := by
  simp [loadRole, and_assoc]

end Store

/-! ## The role tables -/

def Call.writesRoles : Call → Bool
  | .roleCreate _ | .roleUpdate _ | .roleDelete _ | .permissionCreate _ => true
  | .bindingCreate b => b.role.isSome
  | _ => false

def Store.roleTables (s : Store) :
    List (Row RoleRecord) × List (Row Permission) × List (UUID × UUID) :=
  (s.roles, s.permissions, s.rolePermissions)

theorem World.perform_roleTables (env : Env) (w : World) {c : Call} (hc : c.writesRoles = false) :
    (w.perform env c).2.store.roleTables = w.store.roleTables := by
  cases hws : c.writesStore
  · rw [World.perform_store env w c hws]
  cases c <;> simp only [Call.writesStore, Call.writesRoles, Bool.false_eq_true,
    Bool.true_eq_false] at hws hc <;>
    refine World.write_frame env w Store.roleTables fun s' h => ?_
  case resourceCreate => obtain ⟨-, -, rfl⟩ := Store.resourceCreate_eq_ok.1 h; rfl
  case resourceUpdate => obtain ⟨-, rfl⟩ := Store.resourceUpdate_eq_ok.1 h; rfl
  case policyCreate => obtain ⟨-, -, rfl⟩ := Store.policyCreate_eq_ok.1 h; rfl
  case policyUpdate => obtain ⟨-, -, rfl⟩ := Store.policyUpdate_eq_ok.1 h; rfl
  case bindingCreate b =>
    obtain ⟨h1, h2, h3⟩ := Store.bindingCreate_frame_of_role (by simpa using hc) h
    simp only [Store.roleTables, h1, h2, h3]
  all_goals cases h; rfl


namespace Store

def LinksHeld (s : Store) : Prop :=
  ∀ l ∈ s.rolePermissions, Table.holds RoleRecord.id s.roles l.1 = true

theorem empty_linksHeld : Store.empty.LinksHeld := by simp [LinksHeld, Store.empty]

variable {s s' : Store}

theorem LinksHeld.congr (h1 : s'.roles = s.roles) (h2 : s'.rolePermissions = s.rolePermissions)
    (hs : s.LinksHeld) : s'.LinksHeld := by
  unfold LinksHeld; rw [h1, h2]; exact hs

theorem LinksHeld.roleCreate {r : Role} (hs : s.LinksHeld) (h : s.roleCreate r = .ok s') :
    s'.LinksHeld := by
  obtain ⟨-, join, hjoin, rfl⟩ := roleCreate_eq_ok.1 h
  intro l hl
  rcases (mem_joinRows hjoin l).1 hl with hl | ⟨p, -, rfl⟩
  · simp [hs l hl]
  · simp [Table.holds, RoleRecord.ofRole]

theorem RoleStep.linksHeld (h : RoleStep s s') (hs : s.LinksHeld) : s'.LinksHeld := by
  cases h with
  | roleCreate _ h => exact hs.roleCreate h
  | permissionCreate h => obtain ⟨-, rfl⟩ := permissionCreate_eq_ok.1 h; exact hs
  | joinRows hrole hjoin h =>
    subst h
    intro l hl
    rcases (mem_joinRows hjoin l).1 hl with hl | ⟨p, -, rfl⟩
    · exact hs l hl
    · exact hrole

theorem LinksHeld.bindingCreate {b : Binding} (hs : s.LinksHeld)
    (h : s.bindingCreate b = .ok s') : s'.LinksHeld :=
  bindingCreate_inv (fun _ _ h hs => hs.congr h.frame.2.1 h.frame.2.2.1)
    (fun _ _ h => h.linksHeld)
    (fun _ _ h hs => hs.congr (bindingInsert_frame h).2.2.1 (bindingInsert_frame h).2.2.2.2) h hs

end Store

theorem World.perform_linksHeld (env : Env) (w : World) (c : Call) (hs : w.store.LinksHeld) :
    (w.perform env c).2.store.LinksHeld := by
  cases hc : c.writesRoles
  · have h := World.perform_roleTables env w hc
    simp only [Store.roleTables, Prod.mk.injEq] at h
    rw [Store.LinksHeld, h.1, h.2.2]; exact hs
  cases c <;> simp only [Call.writesRoles, Bool.false_eq_true] at hc <;>
    refine World.write_inv env w hs fun s' h l hl => ?_
  case roleCreate r => exact hs.roleCreate h l hl
  case bindingCreate b => exact hs.bindingCreate h l hl
  case roleUpdate r =>
    obtain ⟨-, join, hjoin, rfl⟩ := Store.roleUpdate_eq_ok.1 h
    rcases (Store.mem_joinRows hjoin l).1 hl with hl | ⟨p, -, rfl⟩
    · exact Table.holds_save _ (hs l hl)
    · exact List.any_eq_true.2 ⟨_, Table.mem_save_iff.2 (.inr rfl), beq_self_eq_true _⟩
  case roleDelete id =>
    cases h
    exact (Table.holds_softDelete _ _).trans (hs l hl)
  case permissionCreate p =>
    obtain ⟨-, rfl⟩ := Store.permissionCreate_eq_ok.1 h
    exact hs l hl

/-! ## Updating a role -/

theorem updateRole_exec_ok {env : Env} {w : World} {id : UUID} {title description : GoString}
    {ps : List UUID} {role : Role}
    (h : ((updateRole id title description ps).exec env w).1 = .ok role) :
    ∃ old, w.store.roleGetByID id = some old ∧
      role = { old with title, description, permissions := w.store.permissionGetByIDs ps } ∧
      w.store.roleUpdate role = .ok ((updateRole id title description ps).exec env w).2.store := by
  simp only [updateRole, RoleRepository.getByID, PermissionRepository.getByIDs,
    RoleRepository.update, lift, call_bind, pure_bind, Prog.exec_call, World.perform] at h ⊢
  generalize hread : World.read env w (w.store.roleGetByID id) = rd at h ⊢
  rcases rd with e | _ | old
  · cases h
  · cases h
  have hold := (World.read_eq_ok env w hread).symm
  simp only [Prog.exec_call, World.perform] at h ⊢
  generalize hperms : World.read env w.next (w.next.store.permissionGetByIDs ps) = rp at h ⊢
  rcases rp with e | perms
  · cases h
  have hp := (World.read_eq_ok env w.next hperms).symm
  simp only [World.next_store] at hp
  subst hp
  simp only [Prog.exec_call, World.perform] at h ⊢
  rcases World.write_cases env w.next.next
    (w.next.next.store.roleUpdate { old with title, description, permissions := _ })
    with ⟨h1, h2⟩ | ⟨⟨e, h1⟩, -⟩
  · rw [h1] at h ⊢
    simp only [Prog.pure_eq, Prog.exec_pure, Except.ok.injEq] at h ⊢
    subst h
    exact ⟨old, hold, rfl, by simpa using h2⟩
  · rw [h1] at h
    cases h

def editorSetup : List Request :=
  [.createPermission (lit "read") [] [], .createPermission (lit "write") [] [],
   .createRole (lit "editor") [] [] [1, 3]]

def editorWorld : World := (runRequests Env.reliable editorSetup (World.init .noop)).2

/--
After a successful `UpdateRole(id, title, description, ps)` the role holds
exactly the live permissions that it held before or whose ids are in `ps`.
-/
theorem updateRole_permissions {env : Env} {w : World} {id : UUID} {title description : GoString}
    {ps : List UUID} {role : Role}
    (h : ((updateRole id title description ps).exec env w).1 = .ok role) :
    ∃ loaded, ((updateRole id title description ps).exec env w).2.store.roleGetByID id =
        some loaded ∧
      ∀ p, p ∈ loaded.permissions ↔ ∃ row ∈ w.store.permissions, row.deleted = false ∧
        row.val = p ∧ ((id, p.id) ∈ w.store.rolePermissions ∨ p.id ∈ ps) := by
  obtain ⟨old, hold, rfl, hs⟩ := updateRole_exec_ok h
  generalize ((updateRole id title description ps).exec env w).2.store = s' at hs ⊢
  obtain ⟨-, join, hjoin, rfl⟩ := Store.roleUpdate_eq_ok.1 hs
  obtain ⟨rec, hrec, rfl⟩ := Option.map_eq_some'.1 hold
  have hid : rec.id = id := (Table.live_eq_some hrec).2
  refine ⟨_, by
    rw [Store.roleGetByID, ← hid]; exact congrArg (Option.map _) (Table.live_save _ _),
    fun p => ?_⟩
  simp only [Store.mem_loadRole_permissions, Store.RoleRecord.ofRole, Store.loadRole_id, hid,
    Store.mem_joinRows hjoin, Store.mem_permissionGetByIDs]
  constructor
  · rintro ⟨row, hrow, hlive, hj, rfl⟩
    refine ⟨row, hrow, hlive, rfl, hj.imp_right ?_⟩
    rintro ⟨_, ⟨row', -, -, hin, rfl⟩, heq⟩
    simpa [← (Prod.mk.inj heq).2] using hin
  · rintro ⟨row, hrow, hlive, rfl, hj⟩
    exact ⟨row, hrow, hlive,
      hj.imp_right fun hin => ⟨row.val, ⟨row, hrow, hlive, hin, rfl⟩, rfl⟩, rfl⟩

theorem updateRole_permissions_editor :
    ∃ role, ((updateRole 6 [] [] [1]).exec Env.reliable editorWorld).1 = .ok role ∧
      ∃ loaded, ((updateRole 6 [] [] [1]).exec Env.reliable editorWorld).2.store.roleGetByID 6 =
          some loaded ∧
        ∀ p, p ∈ loaded.permissions ↔ ∃ row ∈ editorWorld.store.permissions, row.deleted = false ∧
          row.val = p ∧ ((6, p.id) ∈ editorWorld.store.rolePermissions ∨ p.id ∈ [1]) :=
  ⟨_, rfl, updateRole_permissions rfl⟩

/-- `UpdateRole` of role `6` to `read` alone succeeds, and the role still holds `write`. -/
theorem updateRole_keeps_dropped_permission :
    ((updateRole 6 [] [] [1]).exec Env.reliable editorWorld).1.toBool = true ∧
    (((updateRole 6 [] [] [1]).exec Env.reliable editorWorld).2.store.roleGetByID 6).map
      (fun r => r.permissions.map (·.id)) = some [1, 3] := by
  decide

/-! ## Appending and deleting links -/

namespace Store

variable {s : Store}

theorem mem_permissionGetByIDs_ids {ids : List UUID} {row : Row Permission}
    (hrow : row ∈ s.permissions) (hlive : row.deleted = false) :
    row.val.id ∈ (s.permissionGetByIDs ids).map (·.id) ↔ row.val.id ∈ ids := by
  simp only [List.mem_map, mem_permissionGetByIDs]
  constructor
  · rintro ⟨_, ⟨q, -, -, hq, rfl⟩, he⟩
    rwa [← he]
  · exact fun h => ⟨row.val, ⟨row, hrow, hlive, h, rfl⟩, rfl⟩

theorem joinRows_permissionGetByIDs (roleID : UUID) (ids : List UUID) :
    s.joinRows roleID (s.permissionGetByIDs ids) =
      .ok (((s.permissionGetByIDs ids).map fun p => (roleID, p.id)).foldl
        (fun acc row => if row ∈ acc then acc else acc ++ [row]) s.rolePermissions) := by
  rw [joinRows, if_pos]
  simp only [List.all_eq_true]
  intro p hp
  obtain ⟨row, hrow, -, -, rfl⟩ := mem_permissionGetByIDs.1 hp
  simpa [Table.holds] using ⟨row, hrow, rfl⟩

theorem mem_links_append_delete {roleID : UUID} {ids : List UUID} {row : Row Permission}
    (hrow : row ∈ s.permissions) (hlive : row.deleted = false) :
    (roleID, row.val.id) ∈
        (((s.permissionGetByIDs ids).map fun p => (roleID, p.id)).foldl
          (fun acc row => if row ∈ acc then acc else acc ++ [row]) s.rolePermissions).filter
          (fun l => !(l.1 == roleID && ((s.permissionGetByIDs ids).map (·.id)).contains l.2)) ↔
      (roleID, row.val.id) ∈ s.rolePermissions ∧ row.val.id ∉ ids := by
  have hj : (roleID, row.val.id) ∈ (s.permissionGetByIDs ids).map (fun p => (roleID, p.id)) ↔
      row.val.id ∈ (s.permissionGetByIDs ids).map (·.id) := by simp
  have hf : row.val.id ∈ (s.permissionGetByIDs ids).map (·.id) ↔ row.val.id ∈ ids :=
    mem_permissionGetByIDs_ids hrow hlive
  rw [List.mem_filter, mem_foldl_addNew, hj, ← hf]
  simp only [beq_self_eq_true, Bool.true_and, List.elem_eq_mem, Bool.not_eq_eq_eq_not,
    Bool.not_true, decide_eq_false_iff_not]
  tauto

end Store

/--
On a live role, `AddPermissions` and then `RemovePermissions` of the same ids
both succeed, and `GetPermissions` then returns what it returned before, less
the permissions with those ids.
-/
theorem roleRemovePermissions_roleAddPermissions (s : Store) (roleID : UUID) (ids : List UUID)
    (hrole : (Table.live RoleRecord.id s.roles roleID).isSome) :
    ∃ s₁ s₂, s.roleAddPermissions roleID ids = .ok s₁ ∧
      s₁.roleRemovePermissions roleID ids = .ok s₂ ∧
      s₂.roleGetPermissions roleID =
        (s.roleGetPermissions roleID).map (·.filter fun p => p.id ∉ ids) := by
  obtain ⟨r, hr⟩ := Option.isSome_iff_exists.1 hrole
  have hfirst : s.roleFirst roleID = .ok r := by simp [Store.roleFirst, hr]
  have hrid : r.id = roleID := (Table.live_eq_some hr).2
  refine ⟨_, _, by rw [Store.roleAddPermissions, hfirst, Store.joinRows_permissionGetByIDs]; rfl,
    by rw [Store.roleRemovePermissions, Store.roleFirst_rolePermissions, hfirst]; rfl, ?_⟩
  simp only [Store.roleGetPermissions, Store.roleFirst_rolePermissions, hfirst, Except.map,
    Store.loadRole, List.filter_filterMap, Store.permissionGetByIDs_rolePermissions]
  congr 1
  refine List.filterMap_congr fun x hx => ?_
  cases hlive : x.deleted
  · simp only [Bool.not_false, Bool.true_and, decide_eq_true_eq, hrid,
      Store.mem_links_append_delete hx hlive]
    by_cases hin : (roleID, x.val.id) ∈ s.rolePermissions <;> simp [hin, Option.filter]
  · simp

theorem roleRemovePermissions_roleAddPermissions_editor :
    (Table.live RoleRecord.id editorWorld.store.roles 6).isSome ∧
    ∃ s₁ s₂, editorWorld.store.roleAddPermissions 6 [3] = .ok s₁ ∧
      s₁.roleRemovePermissions 6 [3] = .ok s₂ ∧
      s₂.roleGetPermissions 6 =
        (editorWorld.store.roleGetPermissions 6).map (·.filter fun p => p.id ∉ [3]) :=
  ⟨by decide, roleRemovePermissions_roleAddPermissions _ 6 [3] (by decide)⟩

/-! ## Creating a role -/

namespace Store

theorem roleGetByID_roleCreate {s s' : Store} {r : Role} {ps : List UUID} (hl : s.LinksHeld)
    (hp : r.permissions = s.permissionGetByIDs ps) (h : s.roleCreate r = .ok s') :
    s'.roleGetByID r.id = some r := by
  obtain ⟨hnew, join, hjoin, rfl⟩ := roleCreate_eq_ok.1 h
  have hheld : Table.holds RoleRecord.id s.roles r.id = false := by
    simpa using (Bool.or_eq_false_iff.1 hnew).1
  -- no link named the new id, so its links are those of the permissions found
  have hlink : ∀ q, (r.id, q) ∈ join ↔ q ∈ (s.permissionGetByIDs ps).map (·.id) := fun q => by
    rw [mem_joinRows hjoin, hp, List.mem_map]
    constructor
    · rintro (hq | ⟨p, hp', he⟩)
      · exact absurd (hl _ hq) (by simp [hheld])
      · exact ⟨p, hp', (Prod.mk.inj he).2⟩
    · rintro ⟨p, hp', rfl⟩
      exact .inr ⟨p, hp', rfl⟩
  refine (congrArg (Option.map _) (Table.live_append_new hheld)).trans (congrArg some ?_)
  obtain ⟨id, name, title, description, perms, isCustom⟩ := r
  obtain rfl : perms = s.permissionGetByIDs ps := hp
  simp only [loadRole, RoleRecord.ofRole, Role.mk.injEq, true_and, and_true]
  refine List.filterMap_congr fun row hrow => ?_
  cases hd : row.deleted
  · simp [hlink, mem_permissionGetByIDs_ids hrow hd]
  · simp [hd]

end Store

end Iam
