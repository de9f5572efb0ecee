import Iam.Runtime.Reach
import Iam.Repository.Hierarchy

/-!
# Referential integrity

The foreign keys hold in every reachable store: each `parent_id`, each
policy's `resource_id` and each binding's `policy_id` names a row.  They do
not make a delete cascade.  A soft delete keeps the row, so a reference to it
stays valid while the row it names is no longer live: `DeleteResource` and
`DeletePolicy` each delete one row, and what that row owns stays live.
-/

namespace Iam

namespace Store

variable (s : Store)

structure Integrity : Prop where
  parents : s.ParentsHeld
  policy_resources :
    ∀ p ∈ s.policies, Table.holds Resource.id s.resources p.val.resourceID = true
  binding_policies :
    ∀ b ∈ s.bindings, Table.holds PolicyRecord.id s.policies b.val.policyID = true

variable {s}

theorem Integrity.congr {s' : Store} (h1 : s'.resources = s.resources)
    (h2 : s'.policies = s.policies) (h3 : s'.bindings = s.bindings) (hs : s.Integrity) :
    s'.Integrity := by
  obtain ⟨hp, hr, hb⟩ := hs
  refine ⟨?_, ?_, ?_⟩
  · unfold ParentsHeld resourceVals at *; rwa [h1]
  · rwa [h1, h2]
  · rwa [h2, h3]

theorem empty_integrity : Store.empty.Integrity :=
  ⟨fun _ h => by simp [resourceVals, Store.empty] at h, by simp [Store.empty],
    by simp [Store.empty]⟩

section Rows

variable {s' : Store} (hs : s.Integrity)
include hs

theorem Integrity.resourceCreate {r : Resource} (h : s.resourceCreate r = .ok s') :
    s'.Integrity := by
  refine ⟨hs.parents.resourceCreate h, ?_, ?_⟩ <;> obtain ⟨-, -, rfl⟩ := resourceCreate_eq_ok.1 h
  · exact fun p hp => by simp [hs.policy_resources p hp]
  · exact hs.binding_policies

theorem Integrity.setParentID {r : Resource}
    (hheld : Table.holds Resource.id s.resources r.id = true)
    (hfk : r.parentID.all (refersTo (Table.holds Resource.id s.resources) r.id) = true) :
    (s.setParentID r).Integrity := by
  refine ⟨hs.parents.setParentID hheld hfk, fun p hp => ?_, hs.binding_policies⟩
  rw [holds_resources_iff, ids_setParentID, ← holds_resources_iff]
  exact hs.policy_resources p hp

theorem Integrity.policyCreate {p : Policy} (h : s.policyCreate p = .ok s') : s'.Integrity := by
  obtain ⟨-, hres, rfl⟩ := policyCreate_eq_ok.1 h
  refine ⟨hs.parents, fun q hq => ?_, fun b hb => by simp [hs.binding_policies b hb]⟩
  rcases List.mem_append.1 hq with hq | hq
  · exact hs.policy_resources q hq
  · rw [List.mem_singleton.1 hq]; exact hres

theorem Integrity.setPolicyID {r : BindingRecord}
    (hpol : Table.holds PolicyRecord.id s.policies r.policyID = true) :
    (s.setPolicyID r).Integrity := by
  refine ⟨hs.parents, hs.policy_resources, fun x hx => ?_⟩
  obtain ⟨y, hy, rfl⟩ := List.mem_map.1 hx
  split
  · exact hpol
  · exact hs.binding_policies y hy

theorem Integrity.bindingInsert {b : Binding} (h : s.bindingInsert b = .ok s') :
    s'.Integrity := by
  obtain ⟨-, hpol, -, -, hb⟩ := bindingInsert_eq_ok.1 h
  rw [withBinding_eq_ok hb]
  refine ⟨hs.parents, hs.policy_resources, fun x hx => ?_⟩
  rcases List.mem_append.1 hx with hx | hx
  · exact hs.binding_policies x hx
  · rw [List.mem_singleton.1 hx]; exact hpol

end Rows

theorem TreeStep.integrity {s' : Store} (h : TreeStep s s') (hs : s.Integrity) :
    s'.Integrity := by
  cases h with
  | resourceCreate h => exact hs.resourceCreate h
  | setParentID hheld hfk h => exact h ▸ hs.setParentID hheld hfk
  | policyCreate h => exact hs.policyCreate h
  | setPolicyID _ hpol h => exact h ▸ hs.setPolicyID hpol
  | bindingInsert _ h => exact hs.bindingInsert h

theorem RoleStep.integrity {s' : Store} (h : RoleStep s s') (hs : s.Integrity) :
    s'.Integrity :=
  let ⟨h1, h2, h3, _⟩ := h.frame
  hs.congr h1 h2 h3

theorem Integrity.bindingCreate {b : Binding} {s' : Store} (hs : s.Integrity)
    (h : s.bindingCreate b = .ok s') : s'.Integrity :=
  bindingCreate_inv (fun _ _ h => h.integrity) (fun _ _ h => h.integrity)
    (fun _ _ h hs => hs.bindingInsert h) h hs

end Store

open Store in
theorem World.perform_integrity (env : Env) (w : World) (c : Call) (hs : w.store.Integrity) :
    (w.perform env c).2.store.Integrity := by
  cases hw : c.writesStore
  · rwa [World.perform_store env w c hw]
  cases c <;> simp only [Call.writesStore, Bool.false_eq_true] at hw
  case resourceCreate r => exact World.write_inv env w hs fun _ h => hs.resourceCreate h
  case resourceUpdate r =>
    refine World.write_inv env w hs fun s' h => ⟨hs.parents.resourceUpdate h, ?_, ?_⟩ <;>
      obtain ⟨-, rfl⟩ := resourceUpdate_eq_ok.1 h
    · exact fun p hp => Table.holds_save _ (hs.policy_resources p hp)
    · exact hs.binding_policies
  case resourceDelete id =>
    refine World.write_inv env w hs fun s' h => ?_
    cases h
    refine ⟨fun x hx q hq => ?_, fun p hp => ?_, hs.binding_policies⟩
    · rw [resourceVals_resourceDelete] at hx ⊢
      exact hs.parents x hx q hq
    · simpa [resourceDelete] using hs.policy_resources p hp
  case policyCreate p => exact World.write_inv env w hs fun _ h => hs.policyCreate h
  case policyUpdate p =>
    refine World.write_inv env w hs fun s' h => ?_
    obtain ⟨-, hres, rfl⟩ := policyUpdate_eq_ok.1 h
    refine ⟨hs.parents, fun q hq => ?_,
      fun b hb => Table.holds_save _ (hs.binding_policies b hb)⟩
    rcases Table.mem_save hq with hq | hq
    · exact hs.policy_resources q hq
    · rw [hq]; exact hres
  case policyDelete id =>
    refine World.write_inv env w hs fun s' h => ?_
    cases h
    refine ⟨hs.parents, fun q hq => ?_, fun b hb => by
      simpa [policyDelete] using hs.binding_policies b hb⟩
    obtain ⟨q', hq', heq⟩ := Table.mem_softDelete hq
    exact heq ▸ hs.policy_resources q' hq'
  case bindingCreate b => exact World.write_inv env w hs fun _ h => hs.bindingCreate h
  case bindingDelete id =>
    refine World.write_inv env w hs fun s' h => ?_
    cases h
    refine ⟨hs.parents, hs.policy_resources, fun x hx => ?_⟩
    obtain ⟨x', hx', heq⟩ := Table.mem_softDelete hx
    exact heq ▸ hs.binding_policies x' hx'
  case permissionCreate p =>
    refine World.write_inv env w hs fun s' h => ?_
    obtain ⟨-, rfl⟩ := permissionCreate_eq_ok.1 h
    exact Integrity.congr (s := w.store) rfl rfl rfl hs
  case roleCreate r =>
    refine World.write_inv env w hs fun s' h => ?_
    obtain ⟨-, _, -, rfl⟩ := roleCreate_eq_ok.1 h
    exact Integrity.congr (s := w.store) rfl rfl rfl hs
  case roleUpdate r =>
    refine World.write_inv env w hs fun s' h => ?_
    obtain ⟨-, _, -, rfl⟩ := roleUpdate_eq_ok.1 h
    exact Integrity.congr (s := w.store) rfl rfl rfl hs
  case roleDelete id =>
    exact World.write_inv env w hs fun s' h => by
      cases h; exact Integrity.congr (s := w.store) rfl rfl rfl hs

/--
In every reachable world each resource's `parent_id`, each policy's
`resource_id` and each binding's `policy_id` names a row, live or
soft-deleted: the foreign keys hold, whatever the requests and failures.
-/
theorem reachable_references_held (env : Env) (ok : World → Request → Prop) (w : World)
    (h : Reachable env ok w) : w.store.Integrity :=
  h.store_inv Store.empty_integrity fun _ req _ hs =>
    Prog.exec_inv env (fun c w => World.perform_integrity env w c) req.prog hs

/--
A resource with a child, two policies with a binding each; then the parent
resource is deleted, and so is the second policy.
-/
def orphanRun : List Request :=
  [.createResource (lit "org") (lit "o") none [],
   .createResource (lit "doc") (lit "d") (some 1) [],
   .createRole (lit "viewer") [] [] [],
   .createPolicy 1 [⟨UUID.nil, UUID.nil, 6, none, Json.marshalStrings [lit "alice"], none, none⟩],
   .createPolicy 3 [⟨UUID.nil, UUID.nil, 6, none, Json.marshalStrings [lit "bob"], none, none⟩],
   .deleteResource 1,
   .deletePolicy 3 (UUID.string 16)]

theorem reachable_references_held_orphan :
    (runRequests Env.reliable orphanRun (World.init .noop)).2.store.Integrity :=
  reachable_references_held Env.reliable (fun _ _ => True) _
    (Reachable.runRequests (fun _ _ => trivial) orphanRun (.init .noop 0))

/-! ## Deletes do not cascade -/

namespace Store

variable (s : Store)

def parentsLive : Bool :=
  s.resources.all fun r => r.deleted || r.val.parentID.all fun q => (s.resourceGetByID q).isSome

def policyResourcesLive : Bool :=
  s.policies.all fun p => p.deleted || (s.resourceGetByID p.val.resourceID).isSome

def bindingPoliciesLive : Bool :=
  s.bindings.all fun b => b.deleted || (Table.live PolicyRecord.id s.policies b.val.policyID).isSome

end Store

theorem deletes_leave_owned_rows_live :
    ∃ w, Reachable Env.reliable (fun _ _ => True) w ∧ w.store.parentsLive = false ∧
      w.store.policyResourcesLive = false ∧ w.store.bindingPoliciesLive = false :=
  ⟨_, Reachable.runRequests (fun _ _ => trivial) orphanRun (.init .noop 0), by decide⟩

end Iam
