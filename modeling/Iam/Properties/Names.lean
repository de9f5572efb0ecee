import Iam.Properties.CustomRoles

/-!
# Names are never freed

`roles.name` and `permissions.name` are unique indexes, and an index also
holds the soft-deleted rows.  `DeleteRole` only sets `deleted_at`,
`UpdateRole` saves the role it read under the name it had, no operation of
the service deletes or renames a permission, and the `Role` a binding
carries is inserted `ON CONFLICT DO NOTHING`.  So from any world, whatever
requests follow and whatever calls fail, every name a role or permission row
had is still held, and `CreateRole` or `CreatePermission` with it fails: a
deleted role cannot be created again under its name.

`Save` rewrites every row of the saved id, so the argument needs that rows of
one id have one name (`Store.RoleIdsNamed`), and that a role a read returns
has the name that the earlier world gave its id (`Store.NamedAsIn`).
-/

namespace Iam

open Prog

namespace Store

def RoleIdsNamed (s : Store) : Prop :=
  ∀ a ∈ s.roles, ∀ b ∈ s.roles, a.val.id = b.val.id → a.val.name = b.val.name

def NamedAsIn (s : Store) (r : Role) : Prop :=
  ∀ a ∈ s.roles, a.val.id = r.id → a.val.name = r.name

def NamesKept (s s' : Store) : Prop :=
  (∀ a ∈ s.roles, ∃ b ∈ s'.roles, b.val.id = a.val.id ∧ b.val.name = a.val.name) ∧
    ∀ a ∈ s.permissions, ∃ b ∈ s'.permissions, b.val.name = a.val.name

abbrev KeepsNamesOf (s₀ s : Store) : Prop := s.RoleIdsNamed ∧ s₀.NamesKept s

theorem empty_roleIdsNamed : Store.empty.RoleIdsNamed := by simp [RoleIdsNamed, Store.empty]

theorem namesKept_refl (s : Store) : s.NamesKept s :=
  ⟨fun a ha => ⟨a, ha, rfl, rfl⟩, fun a ha => ⟨a, ha, rfl⟩⟩

theorem NamesKept.roles_any {s s' : Store} (h : s.NamesKept s') {name : GoString}
    (hn : s.roles.any (·.val.name == name) = true) : s'.roles.any (·.val.name == name) = true := by
  obtain ⟨a, ha, hna⟩ := List.any_eq_true.1 hn
  obtain ⟨b, hb, -, hnb⟩ := h.1 a ha
  exact List.any_eq_true.2 ⟨b, hb, hnb ▸ hna⟩

theorem NamesKept.permissions_any {s s' : Store} (h : s.NamesKept s') {name : GoString}
    (hn : s.permissions.any (·.val.name == name) = true) :
    s'.permissions.any (·.val.name == name) = true := by
  obtain ⟨a, ha, hna⟩ := List.any_eq_true.1 hn
  obtain ⟨b, hb, hnb⟩ := h.2 a ha
  exact List.any_eq_true.2 ⟨b, hb, hnb ▸ hna⟩

section Writes

variable {s₀ s s' : Store}

theorem KeepsNamesOf.congr (h1 : s'.roles = s.roles) (h2 : s'.permissions = s.permissions)
    (hs : s₀.KeepsNamesOf s) : s₀.KeepsNamesOf s' := by
  unfold KeepsNamesOf RoleIdsNamed NamesKept; rw [h1, h2]; exact hs

theorem KeepsNamesOf.roleCreate {r : Role} (hs : s₀.KeepsNamesOf s)
    (h : s.roleCreate r = .ok s') : s₀.KeepsNamesOf s' := by
  obtain ⟨hids, hroles, hperms⟩ := hs
  obtain ⟨hnew, _, -, rfl⟩ := roleCreate_eq_ok.1 h
  have hfree : ∀ a ∈ s.roles, a.val.id ≠ r.id := fun a ha hid => by
    simp only [Bool.or_eq_false_iff, Table.holds, List.any_eq_false, beq_iff_eq] at hnew
    exact hnew.1 a ha hid
  refine ⟨fun a ha b hb hab => ?_, fun a ha => ?_, hperms⟩
  · simp only [List.mem_append, List.mem_singleton] at ha hb
    rcases ha with ha | rfl <;> rcases hb with hb | rfl
    · exact hids a ha b hb hab
    · exact absurd hab (hfree a ha)
    · exact absurd hab.symm (hfree b hb)
    · rfl
  · obtain ⟨b, hb, hbe⟩ := hroles a ha
    exact ⟨b, List.mem_append_left _ hb, hbe⟩

theorem KeepsNamesOf.permissionCreate {p : Permission} (hs : s₀.KeepsNamesOf s)
    (h : s.permissionCreate p = .ok s') : s₀.KeepsNamesOf s' := by
  obtain ⟨hids, hroles, hperms⟩ := hs
  obtain ⟨-, rfl⟩ := permissionCreate_eq_ok.1 h
  refine ⟨hids, hroles, fun a ha => ?_⟩
  obtain ⟨b, hb, hbe⟩ := hperms a ha
  exact ⟨b, List.mem_append_left _ hb, hbe⟩

theorem RoleStep.keepsNamesOf (h : RoleStep s s') (hs : s₀.KeepsNamesOf s) :
    s₀.KeepsNamesOf s' := by
  cases h with
  | roleCreate _ h => exact hs.roleCreate h
  | permissionCreate h => exact hs.permissionCreate h
  | joinRows _ _ h => subst h; exact hs

theorem KeepsNamesOf.bindingCreate {b : Binding} (hs : s₀.KeepsNamesOf s)
    (h : s.bindingCreate b = .ok s') : s₀.KeepsNamesOf s' :=
  bindingCreate_inv (fun _ _ h hs => hs.congr h.frame.2.1 h.frame.1)
    (fun _ _ h => h.keepsNamesOf)
    (fun _ _ h hs => hs.congr (bindingInsert_frame h).2.2.1 (bindingInsert_frame h).2.2.2.1) h hs

end Writes

end Store

namespace World

variable (env : Env) (w : World) {s₀ : Store}

theorem perform_namesKept {c : Call}
    (hc : c.SavesRole (fun _ => True) s₀.NamedAsIn (fun _ => True))
    (hs : s₀.KeepsNamesOf w.store) : s₀.KeepsNamesOf (w.perform env c).2.store := by
  cases hwr : c.writesRoles
  · have h := perform_roleTables env w hwr
    simp only [Store.roleTables, Prod.mk.injEq] at h
    simp only [Store.KeepsNamesOf, Store.RoleIdsNamed, Store.NamesKept, h.1, h.2.1]
    exact hs
  obtain ⟨hids, hroles, hperms⟩ := hs
  cases c <;> simp only [Call.writesRoles, Bool.false_eq_true] at hwr <;>
    refine write_inv env w ⟨hids, hroles, hperms⟩ fun s' h => ?_
  case roleCreate r => exact Store.KeepsNamesOf.roleCreate ⟨hids, hroles, hperms⟩ h
  case roleUpdate r =>
    obtain ⟨-, _, -, rfl⟩ := Store.roleUpdate_eq_ok.1 h
    refine ⟨fun a ha b hb hab => ?_, fun a ha => ?_, hperms⟩
    · rcases Table.mem_save_iff.1 ha with ⟨ha, hka⟩ | rfl <;>
        rcases Table.mem_save_iff.1 hb with ⟨hb, hkb⟩ | rfl
      · exact hids a ha b hb hab
      · exact absurd hab hka
      · exact absurd hab.symm hkb
      · rfl
    · obtain ⟨b, hb, hbid, hbn⟩ := hroles a ha
      by_cases hk : b.val.id = r.id
      · -- the row of `r`'s id is rewritten, under the name `s₀` gave that id
        exact ⟨⟨Store.RoleRecord.ofRole r, false⟩, Table.mem_save_iff.2 (.inr rfl),
          hbid ▸ hk.symm, (hc a ha (hbid ▸ hk)).symm⟩
      · exact ⟨b, Table.mem_save_iff.2 (.inl ⟨hb, hk⟩), hbid, hbn⟩
  case roleDelete id =>
    cases h
    refine ⟨fun a ha b hb hab => ?_, fun a ha => ?_, hperms⟩
    · obtain ⟨a', ha', hva⟩ := Table.mem_softDelete ha
      obtain ⟨b', hb', hvb⟩ := Table.mem_softDelete hb
      rw [← hva, ← hvb] at hab ⊢
      exact hids a' ha' b' hb' hab
    · obtain ⟨b, hb, hbe⟩ := hroles a ha
      refine ⟨_, List.mem_map_of_mem _ hb, ?_⟩
      split <;> exact hbe
  case permissionCreate p => exact Store.KeepsNamesOf.permissionCreate ⟨hids, hroles, hperms⟩ h
  case bindingCreate b => exact Store.KeepsNamesOf.bindingCreate ⟨hids, hroles, hperms⟩ h

theorem perform_loadsNamed (c : Call) (hs : s₀.KeepsNamesOf w.store) :
    Call.LoadsRole s₀.NamedAsIn c (w.perform env c).1 := by
  cases c
  case roleGetByID id =>
    intro role h a ha hid
    obtain ⟨r, hr, rfl⟩ := Option.map_eq_some'.1 (read_eq_ok env w h).symm
    obtain ⟨b, hb, hbid, hbn⟩ := hs.2.1 a ha
    rw [← hbn]
    exact hs.1 b hb _ (Table.live_eq_some hr).1 (hbid.trans hid)
  all_goals trivial

end World

theorem exec_namesKept (env : Env) (s₀ : Store) (req : Request) {w : World}
    (hs : s₀.KeepsNamesOf w.store) : s₀.KeepsNamesOf (req.prog.exec env w).2.store :=
  Sat.exec_inv (fun w _ hc hs => World.perform_namesKept env w hc hs)
    (fun w c hs => World.perform_loadsNamed env w c hs)
    (sat_savesRole (fun _ _ => trivial) (fun _ _ _ _ h => h) (fun _ _ => trivial) req
      fun _ _ _ _ => trivial) hs

theorem runRequests_namesKept (env : Env) (s₀ : Store) :
    ∀ (reqs : List Request) {w : World}, s₀.KeepsNamesOf w.store →
      s₀.KeepsNamesOf (runRequests env reqs w).2.store
  | [], _, hs => hs
  | req :: rest, _, hs => runRequests_namesKept env s₀ rest (exec_namesKept env s₀ req hs)

theorem createRole_fails_of_name (env : Env) (w : World) (name title description : GoString)
    (permissionIDs : List UUID) (h : w.store.roles.any (·.val.name == name) = true) :
    ((createRole name title description permissionIDs).exec env w).1.toBool = false := by
  simp only [createRole, PermissionRepository.getByIDs, lift, call_bind, Prog.pure_bind,
    Prog.exec_call, World.perform]
  generalize World.read env w _ = rd
  rcases rd with e | perms
  · rfl
  · obtain ⟨e, he⟩ := World.write_error env w.next.next .uniqueViolation
    simp [RoleRepository.create, Role.beforeCreate, freshID, newUUID, lift, World.perform,
      Store.roleCreate, h, he]

theorem createPermission_fails_of_name (env : Env) (w : World) (name description service : GoString)
    (h : w.store.permissions.any (·.val.name == name) = true) :
    ((createPermission name description service).exec env w).1.toBool = false := by
  obtain ⟨e, he⟩ := World.write_error env w.next .uniqueViolation
  simp [createPermission, PermissionRepository.create, Permission.beforeCreate, freshID,
    newUUID, lift, World.perform, Store.permissionCreate, h, he]

/--
A name, once taken, is never free again.  From every reachable world, after
any requests in any environment, `CreateRole` with a name that a role row of
the world had, live or deleted, fails, and so does `CreatePermission` with a
name a permission row had.
-/
theorem names_never_freed (env : Env) (ok : World → Request → Prop) (w : World)
    (hw : Reachable env ok w) (reqs : List Request) :
    (∀ name, w.store.roles.any (·.val.name == name) = true →
      ∀ title description permissionIDs,
        ((createRole name title description permissionIDs).exec env
          (runRequests env reqs w).2).1.toBool = false) ∧
    ∀ name, w.store.permissions.any (·.val.name == name) = true →
      ∀ description service,
        ((createPermission name description service).exec env
          (runRequests env reqs w).2).1.toBool = false := by
  have hids : w.store.RoleIdsNamed := hw.store_inv Store.empty_roleIdsNamed fun w req _ hs =>
    (exec_namesKept env w.store req ⟨hs, Store.namesKept_refl _⟩).1
  have hk := (runRequests_namesKept env w.store reqs ⟨hids, Store.namesKept_refl _⟩).2
  exact ⟨fun _ hn _ _ _ => createRole_fails_of_name env _ _ _ _ _ (hk.roles_any hn),
    fun _ hn _ _ => createPermission_fails_of_name env _ _ _ _ (hk.permissions_any hn)⟩

theorem names_never_freed_editor :
    editorWorld.store.roles.any (·.val.name == lit "editor") = true ∧
    ((runRequests Env.reliable [.deleteRole 6] editorWorld).2.store.roleGetByID 6) = none ∧
    ((createRole (lit "editor") [] [] []).exec Env.reliable
      (runRequests Env.reliable [.deleteRole 6] editorWorld).2).1.toBool = false :=
  ⟨by decide, by decide, (names_never_freed Env.reliable (fun _ _ => True) editorWorld
    (Reachable.runRequests (fun _ _ => trivial) _ (.init .noop 0)) [.deleteRole 6]).1 _
    (by decide) _ _ _⟩

end Iam
