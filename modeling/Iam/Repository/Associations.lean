import Iam.Repository.Writes
import Mathlib.Logic.Relation

/-!
# What saving a binding's associations does to the store

`bindingRepository.Create` is one transaction in which GORM saves the
`Policy` and the `Role` a binding carries before the binding row.  Each
statement of those saves is a row operation of a few kinds: a new row that
passed the unique indexes and foreign keys, or the `SET parent_id` and
`SET policy_id` of an upsert on the row of the same id.  `TreeStep` lists the
operations of a `Policy` (resources, policies, bindings), `RoleStep` those of
a `Role` (roles, permissions, join rows).  A save is a sequence of such steps
(`bindingCreate_steps`), so a store invariant holds after it when each step
keeps it (`steps_inv`), and after the whole `Create` when the binding's own
insert keeps it too (`bindingCreate_inv`).
-/

namespace Iam

open Relation

namespace Store

/-- One row operation of the save of a `Policy` association. -/
inductive TreeStep (s s' : Store) : Prop
  | resourceCreate {r : Resource} : s.resourceCreate r = .ok s' → TreeStep s s'
  | setParentID {r : Resource} : Table.holds Resource.id s.resources r.id = true →
      r.parentID.all (refersTo (Table.holds Resource.id s.resources) r.id) = true →
      s' = s.setParentID r → TreeStep s s'
  | policyCreate {p : Policy} : s.policyCreate p = .ok s' → TreeStep s s'
  | setPolicyID {r : BindingRecord} : Table.holds BindingRecord.id s.bindings r.id = true →
      Table.holds PolicyRecord.id s.policies r.policyID = true → s' = s.setPolicyID r →
      TreeStep s s'
  | bindingInsert {b : Binding} : b.condition = none → s.bindingInsert b = .ok s' → TreeStep s s'

/-- One row operation of the save of a `Role` association. -/
inductive RoleStep (s s' : Store) : Prop
  | roleCreate {r : Role} : r.permissions = [] → s.roleCreate r = .ok s' → RoleStep s s'
  | permissionCreate {p : Permission} : s.permissionCreate p = .ok s' → RoleStep s s'
  | joinRows {roleID : UUID} {perms : List Permission} {join : List (UUID × UUID)} :
      Table.holds RoleRecord.id s.roles roleID = true → s.joinRows roleID perms = .ok join →
      s' = { s with rolePermissions := join } → RoleStep s s'

theorem steps_inv {R : Store → Store → Prop} {Inv : Store → Prop}
    (h : ∀ s s', R s s' → Inv s → Inv s') {s s' : Store} (hs : ReflTransGen R s s')
    (hi : Inv s) : Inv s' := by
  induction hs with
  | refl => exact hi
  | tail _ hst ih => exact h _ _ hst ih

theorem steps_eq {β : Type} {R : Store → Store → Prop} (f : Store → β)
    (h : ∀ s s', R s s' → f s' = f s) {s s' : Store} (hs : ReflTransGen R s s') : f s' = f s :=
  steps_inv (fun a b hab (hi : f a = f s) => (h a b hab).trans hi) hs rfl

section Steps

variable {R : Store → Store → Prop} {s s' : Store}

theorem onConflictDoNothing_steps {r : Except DbError Store}
    (hr : ∀ s', r = .ok s' → ReflTransGen R s s') (h : s.onConflictDoNothing r = .ok s') :
    ReflTransGen R s s' := by
  unfold onConflictDoNothing at h
  split at h
  · cases h; exact .refl
  · exact hr _ h

theorem saveAssoc_steps {α : Type} {save : Store → α → Except DbError Store}
    (hsave : ∀ s s' a, save s a = .ok s' → ReflTransGen R s s') :
    ∀ {o : Option α}, s.saveAssoc save o = .ok s' → ReflTransGen R s s'
  | none, h => by cases h; exact .refl
  | some _, h => hsave _ _ _ h

theorem foldlM_steps {α : Type} {row : Store → α → Except DbError Store}
    (hrow : ∀ s s' a, row s a = .ok s' → ReflTransGen R s s') :
    ∀ (rows : List α) {s s' : Store}, rows.foldlM row s = .ok s' → ReflTransGen R s s'
  | [], _, _, h => by cases h; exact .refl
  | a :: rest, _, _, h => by
    obtain ⟨s₁, h₁, h₂⟩ := Except.bind_eq_ok.1 h
    exact (hrow _ _ _ h₁).trans (foldlM_steps hrow rest h₂)

theorem upsertRows_steps {α : Type} {key : α → UUID} {row : Store → α → Except DbError Store}
    (hrow : ∀ s s' a, row s a = .ok s' → ReflTransGen R s s') {rows : List α}
    (h : s.upsertRows key row rows = .ok s') : ReflTransGen R s s' := by
  unfold upsertRows at h
  split at h
  · exact foldlM_steps hrow rows h
  · cases h

end Steps

variable {s s' : Store}

theorem resourceUpsertParent_step {r : Resource} (h : s.resourceUpsertParent r = .ok s') :
    TreeStep s s' := by
  unfold resourceUpsertParent at h
  split at h
  · next hheld =>
    split at h
    · cases h
    · next hfk => exact .setParentID hheld (by simpa using hfk) (Except.ok.inj h).symm
  · exact .resourceCreate h

theorem bindingUpsertPolicy_step {r : BindingRecord} (h : s.bindingUpsertPolicy r = .ok s') :
    TreeStep s s' := by
  unfold bindingUpsertPolicy at h
  split at h
  · cases h
  split at h
  · cases h
  · next hpol =>
    split at h
    · next hheld => exact .setPolicyID hheld (by simpa using hpol) (Except.ok.inj h).symm
    · exact .bindingInsert rfl h

theorem resourceSaveAssoc_steps {ra : ResourceAssoc} (h : s.resourceSaveAssoc ra = .ok s') :
    ReflTransGen TreeStep s s' := by
  have hcreate : ∀ s s' r, s.onConflictDoNothing (s.resourceCreate r) = .ok s' →
      ReflTransGen TreeStep s s' := fun _ _ _ =>
    onConflictDoNothing_steps fun _ h => .single (.resourceCreate h)
  obtain ⟨s₁, h₁, h⟩ := Except.bind_eq_ok.1 h
  obtain ⟨s₂, h₂, h₃⟩ := Except.bind_eq_ok.1 h
  exact ((saveAssoc_steps hcreate h₁).trans (hcreate _ _ _ h₂)).trans
    (upsertRows_steps (fun _ _ _ h => .single (resourceUpsertParent_step h)) h₃)

theorem policySaveAssoc_steps {p : PolicyAssoc} (h : s.policySaveAssoc p = .ok s') :
    ReflTransGen TreeStep s s' := by
  obtain ⟨s₁, h₁, h⟩ := Except.bind_eq_ok.1 h
  obtain ⟨s₂, h₂, h₃⟩ := Except.bind_eq_ok.1 h
  exact ((saveAssoc_steps (fun _ _ _ h => resourceSaveAssoc_steps h) h₁).trans
    (onConflictDoNothing_steps (fun _ h => .single (.policyCreate h)) h₂)).trans
    (upsertRows_steps (fun _ _ _ h => .single (bindingUpsertPolicy_step h)) h₃)

theorem roleSaveAssoc_steps {r : Role} (h : s.roleSaveAssoc r = .ok s') :
    ReflTransGen RoleStep s s' := by
  obtain ⟨s₁, h₁, h⟩ := Except.bind_eq_ok.1 h
  obtain ⟨s₂, h₂, h⟩ := Except.bind_eq_ok.1 h
  have hs₁ : ReflTransGen RoleStep s s₁ :=
    onConflictDoNothing_steps (fun _ h => .single (.roleCreate rfl h)) h₁
  have hs₂ : ReflTransGen RoleStep s₁ s₂ := foldlM_steps (fun _ _ _ h =>
    onConflictDoNothing_steps (fun _ h => .single (.permissionCreate h)) h) _ h₂
  refine (hs₁.trans hs₂).trans ?_
  split at h
  · cases h; exact .refl
  split at h
  · cases h
  · next hrole =>
    obtain ⟨join, hjoin, h⟩ := Except.bind_eq_ok.1 h
    exact .single (.joinRows (by simpa using hrole) hjoin (Except.ok.inj h).symm)

/--
A binding created with its associations: the steps of its `Policy`, then those
of its `Role`, then the binding under the ids the saves gave it.
-/
theorem bindingCreate_steps {b : Binding} (h : s.bindingCreate b = .ok s') :
    ∃ s₁ s₂, ReflTransGen TreeStep s s₁ ∧ ReflTransGen RoleStep s₁ s₂ ∧
      s₂.bindingInsert b.setupReferences = .ok s' ∧ (b.policy = none → s₁ = s) ∧
      (b.role = none → s₂ = s₁) := by
  obtain ⟨s₁, s₂, h₁, h₂, h⟩ := bindingCreate_eq_ok.1 h
  refine ⟨s₁, s₂, saveAssoc_steps (fun _ _ _ h => policySaveAssoc_steps h) h₁,
    saveAssoc_steps (fun _ _ _ h => roleSaveAssoc_steps h) h₂, h, fun hp => ?_, fun hr => ?_⟩
  · rw [hp] at h₁; exact (Except.ok.inj h₁).symm
  · rw [hr] at h₂; exact (Except.ok.inj h₂).symm

theorem bindingCreate_inv {Inv : Store → Prop} {b : Binding}
    (htree : ∀ s s', TreeStep s s' → Inv s → Inv s')
    (hrole : ∀ s s', RoleStep s s' → Inv s → Inv s')
    (hinsert : ∀ s s', s.bindingInsert b.setupReferences = .ok s' → Inv s → Inv s')
    (h : s.bindingCreate b = .ok s') (hs : Inv s) : Inv s' := by
  obtain ⟨s₁, s₂, h₁, h₂, h₃, -, -⟩ := bindingCreate_steps h
  exact hinsert _ _ h₃ (steps_inv hrole h₂ (steps_inv htree h₁ hs))

theorem TreeStep.frame (h : TreeStep s s') :
    s'.permissions = s.permissions ∧ s'.roles = s.roles ∧
      s'.rolePermissions = s.rolePermissions ∧ s'.conditions = s.conditions := by
  cases h with
  | resourceCreate h => obtain ⟨-, -, rfl⟩ := resourceCreate_eq_ok.1 h; exact ⟨rfl, rfl, rfl, rfl⟩
  | setParentID _ _ h => subst h; exact ⟨rfl, rfl, rfl, rfl⟩
  | policyCreate h => obtain ⟨-, -, rfl⟩ := policyCreate_eq_ok.1 h; exact ⟨rfl, rfl, rfl, rfl⟩
  | setPolicyID _ _ h => subst h; exact ⟨rfl, rfl, rfl, rfl⟩
  | bindingInsert hc h =>
    obtain ⟨-, -, -, -, hw⟩ := bindingInsert_eq_ok.1 h
    unfold withBinding at hw
    rw [hc] at hw
    cases hw
    exact ⟨rfl, rfl, rfl, rfl⟩

theorem RoleStep.frame (h : RoleStep s s') :
    s'.resources = s.resources ∧ s'.policies = s.policies ∧ s'.bindings = s.bindings ∧
      s'.conditions = s.conditions := by
  cases h with
  | roleCreate _ h => obtain ⟨-, _, -, rfl⟩ := roleCreate_eq_ok.1 h; exact ⟨rfl, rfl, rfl, rfl⟩
  | permissionCreate h => obtain ⟨-, rfl⟩ := permissionCreate_eq_ok.1 h; exact ⟨rfl, rfl, rfl, rfl⟩
  | joinRows _ _ h => subst h; exact ⟨rfl, rfl, rfl, rfl⟩

theorem bindingInsert_frame {b : Binding} (h : s.bindingInsert b = .ok s') :
    s'.resources = s.resources ∧ s'.policies = s.policies ∧ s'.roles = s.roles ∧
      s'.permissions = s.permissions ∧ s'.rolePermissions = s.rolePermissions := by
  obtain ⟨-, -, -, -, hw⟩ := bindingInsert_eq_ok.1 h
  rw [withBinding_eq_ok hw]
  exact ⟨rfl, rfl, rfl, rfl, rfl⟩

theorem bindingCreate_frame_of_policy {b : Binding} (hp : b.policy = none)
    (h : s.bindingCreate b = .ok s') : s'.resources = s.resources ∧ s'.policies = s.policies := by
  obtain ⟨s₁, s₂, -, h₂, h₃, hs₁, -⟩ := bindingCreate_steps h
  obtain rfl := hs₁ hp
  have h₂ := steps_eq (fun t => (t.resources, t.policies))
    (fun _ _ hst => by dsimp only; rw [hst.frame.1, hst.frame.2.1]) h₂
  obtain ⟨hr, hp, -⟩ := bindingInsert_frame h₃
  simp only [Prod.mk.injEq] at h₂
  exact ⟨hr.trans h₂.1, hp.trans h₂.2⟩

theorem bindingCreate_frame_of_role {b : Binding} (hr : b.role = none)
    (h : s.bindingCreate b = .ok s') : s'.roles = s.roles ∧ s'.permissions = s.permissions ∧
      s'.rolePermissions = s.rolePermissions := by
  obtain ⟨s₁, s₂, h₁, -, h₃, -, hs₂⟩ := bindingCreate_steps h
  obtain rfl := hs₂ hr
  have h₁ := steps_eq (fun t => (t.roles, t.permissions, t.rolePermissions))
    (fun _ _ hst => by dsimp only; rw [hst.frame.1, hst.frame.2.1, hst.frame.2.2.1]) h₁
  obtain ⟨-, -, h1, h2, h3⟩ := bindingInsert_frame h₃
  simp only [Prod.mk.injEq] at h₁
  exact ⟨h1.trans h₁.1, h2.trans h₁.2.1, h3.trans h₁.2.2⟩

end Store

end Iam
