import Iam.Runtime.Reach
import Iam.Repository.Hierarchy

/-!
# Ancestry in reachable worlds

The service writes a parent link in two calls: inserting a resource and
saving one.  `CreateResource` inserts a row with a new id under the parent it
is given, and `UpdateResource` saves the row it loaded with its id and parent.
GORM writes others when a binding sent to `CreatePolicy` or `UpdatePolicy`
carries a `Policy`: it saves the policy's `Resource` and upserts that
resource's `Children` with `SET parent_id`, under the ids the caller gave, and
that can close a cycle however fresh the drawn ids are (`association_cycle`).
So when the ids `uuid.New()` returns are fresh and no binding carries a
`Policy`, every reachable resource table is well formed, and both ancestor
walks end with distinct live parents, nearest first.
-/

namespace Iam

open Prog

def Call.changesParents : Call → Bool
  | .resourceCreate _ | .resourceUpdate _ => true
  | .bindingCreate b => b.policy.isSome
  | _ => false

def Request.writesParents : Request → Bool
  | .createResource .. | .updateResource .. => true
  | _ => false

namespace World

variable (env : Env) (w : World)

theorem write_resourceVals {r : Except DbError Store}
    (h : ∀ s', r = .ok s' → s'.resourceVals = w.store.resourceVals) :
    (w.write env r).2.store.resourceVals = w.store.resourceVals :=
  write_inv env w (show (fun s : Store => s.resourceVals = w.store.resourceVals) w.store from rfl) h

theorem perform_resourceVals {c : Call} (hc : c.changesParents = false) :
    (w.perform env c).2.store.resourceVals = w.store.resourceVals := by
  cases c
  case resourceCreate | resourceUpdate => cases hc
  case resourceDelete id =>
    exact write_resourceVals env w fun _ h => by cases h; simp
  case permissionCreate p =>
    exact write_resourceVals env w fun _ h => by
      obtain ⟨-, rfl⟩ := Store.permissionCreate_eq_ok.1 h; rfl
  case roleCreate r =>
    exact write_resourceVals env w fun _ h => by
      obtain ⟨-, _, -, rfl⟩ := Store.roleCreate_eq_ok.1 h; rfl
  case roleUpdate r =>
    exact write_resourceVals env w fun _ h => by
      obtain ⟨-, _, -, rfl⟩ := Store.roleUpdate_eq_ok.1 h; rfl
  case policyCreate p =>
    exact write_resourceVals env w fun _ h => by
      obtain ⟨-, -, rfl⟩ := Store.policyCreate_eq_ok.1 h; rfl
  case policyUpdate p =>
    exact write_resourceVals env w fun _ h => by
      obtain ⟨-, -, rfl⟩ := Store.policyUpdate_eq_ok.1 h; rfl
  case bindingCreate b =>
    have hp : b.policy = none := by simpa [Call.changesParents] using hc
    exact write_resourceVals env w fun _ h => by
      rw [Store.resourceVals, (Store.bindingCreate_frame_of_policy hp h).1]; rfl
  case roleDelete | policyDelete | bindingDelete =>
    exact write_resourceVals env w fun _ h => by cases h; rfl
  all_goals exact congrArg Store.resourceVals (perform_store env w _ rfl)

end World

theorem only_keepsParents (req : Request) (h : req.writesParents = false)
    (hb : req.NoPolicyAssoc) :
    Only (fun c => c.changesParents = false) req.prog := by
  have hsent : ∀ b ∈ req.sentBindings, ∀ b' : Binding, b'.CarriesAtMost b →
      b'.condition.all (·.bindingID == b'.id) = true →
        (Call.bindingCreate b').changesParents = false := fun b hb' b' hc _ => by
    simp [Call.changesParents, hc.1 (hb b hb')]
  have hplain : ∀ b' : Binding, b'.plain = true → b'.condition.all (·.bindingID == b'.id) = true →
      (Call.bindingCreate b').changesParents = false := fun b' hp _ => by
    simp [Call.changesParents, (Binding.plain_iff.1 hp).2]
  cases req <;> simp only [Request.writesParents, Bool.true_eq_false] at h
  case createPolicy r bs =>
    exact Only.map _ (only_createPolicy (P := fun c => c.changesParents = false) rfl
      (fun _ => rfl) rfl (fun _ => rfl) r bs hsent)
  case updatePolicy r bs e =>
    exact Only.map _ (only_updatePolicy (P := fun c => c.changesParents = false) (fun _ => rfl)
      rfl (fun _ => rfl) (fun _ => rfl) rfl (fun _ => rfl) r bs e hsent)
  case createBinding r role ms c =>
    exact Only.map _ (only_createBinding (P := fun c => c.changesParents = false)
      (fun _ => rfl) rfl (fun _ => rfl) hplain rfl (fun _ => rfl) r role ms c)
  all_goals
    simp [Request.prog, checkPermission, only_checkPermissionWith, only_getEffectivePermissions,
      Call.changesParents, getResource, deleteResource, createPermission, createRole, getRole,
      updateRole, deleteRole, getPolicy, deletePolicy, deleteBinding, ResourceRepository.getByID,
      ResourceRepository.delete, PermissionRepository.create, PermissionRepository.getByIDs,
      RoleRepository.create, RoleRepository.getByID, RoleRepository.update, RoleRepository.delete,
      PolicyRepository.getByResourceID, PolicyRepository.delete, BindingRepository.delete,
      Permission.beforeCreate, Role.beforeCreate, freshID, newUUID, cacheClear, lift,
      Call.ForallReply]

section Step

variable (env : Env) (w : World)

theorem createResource_store (t n : GoString) (parent : Option UUID) (attrs : StringMap) :
    ((Request.createResource t n parent attrs).prog.exec env w).2.store =
      (w.next.write env
        (w.store.resourceCreate ⟨env.uuid w.tick, t, n, parent, attrs⟩)).2.store := by
  simp [Request.prog, Iam.createResource, ResourceRepository.create, Resource.beforeCreate, freshID,
    newUUID, lift, World.perform]
  split <;> rfl

theorem updateResource_store (id : UUID) (n : GoString) (a : StringMap) :
    ((Request.updateResource id n a).prog.exec env w).2.store = w.store ∨
    ∃ row, w.store.resourceGetByID id = some row ∧
      ((Request.updateResource id n a).prog.exec env w).2.store =
        (w.next.write env
          (w.store.resourceUpdate { row with name := n, attributes := a })).2.store := by
  simp [Request.prog, Iam.updateResource, ResourceRepository.getByID, ResourceRepository.update,
    lift, World.perform, World.read]
  cases env.fails w.tick
  · cases hr : w.store.resourceGetByID id with
    | none => simp
    | some row =>
      refine .inr ⟨row, rfl, ?_⟩
      simp [World.perform]
      split <;> rfl
  · simp

theorem Store.empty_wellFormed : Store.empty.WellFormed :=
  ⟨List.nodup_nil, fun _ h => by simp [Store.resourceVals, Store.empty] at h,
    fun _ h => by
      obtain ⟨c, -, r, hr, -⟩ := Relation.TransGen.tail'_iff.1 h
      simp [Store.resourceVals, Store.empty] at hr⟩

theorem exec_wellFormed (req : Request) (hfresh : FreshIDs env w req)
    (hs : w.store.WellFormed) : (req.prog.exec env w).2.store.WellFormed := by
  cases hw : req.writesParents
  · exact (only_keepsParents req hw hfresh.1).exec_inv env
      (fun c w hc hs => hs.of_resourceVals_eq (World.perform_resourceVals env w hc)) hs
  cases req <;> simp only [Request.writesParents, Bool.false_eq_true] at hw
  case createResource t n parent attrs =>
    rw [createResource_store]
    rcases World.write_store env w.next _ with h | h
    · rwa [h]
    · refine hs.resourceCreate (fun hp => ?_) h
      cases parent
      · cases hp
      · exact hfresh.2 (Option.some.inj hp).symm
  case updateResource id n a =>
    rcases updateResource_store env w id n a with h | ⟨row, hrow, h⟩
    · rwa [h]
    rw [h]
    rcases World.write_store env w.next _ with h' | h'
    · rwa [h']
    · have hmem := (Table.live_eq_some hrow).1
      exact hs.resourceUpdate (r := { row with name := n, attributes := a })
        (List.mem_map.2 ⟨_, hmem, rfl⟩) rfl rfl h'

end Step

def hierarchyRun : List Request :=
  [.createResource (lit "org") (lit "o") none [],
   .createResource (lit "folder") (lit "f") (some 1) [],
   .createResource (lit "doc") (lit "d") (some 3) []]

def hierarchyWorld : World := (runRequests Env.reliable hierarchyRun (World.init .noop)).2

theorem hierarchyWorld_reachable : Reachable Env.reliable (FreshIDs Env.reliable) hierarchyWorld :=
  (((Reachable.init .noop 0).step _ (.of_draws rfl trivial)).step _
    (.of_draws rfl (by unfold FreshDraws; decide))).step _
    (.of_draws rfl (by unfold FreshDraws; decide))

def teamAssoc : ResourceAssoc :=
  ⟨⟨UUID.nil, lit "team", lit "t", some 1, []⟩, none, [⟨1, lit "org", lit "o", none, []⟩]⟩

def cycleRun : List Request :=
  [.createResource (lit "org") (lit "o") none [], .createRole (lit "viewer") [] [] [],
   .createPolicy 1 [⟨UUID.nil, UUID.nil, 4, none, Json.marshalStrings [lit "alice"], none,
     some ⟨UUID.nil, UUID.nil, [], 1, some teamAssoc, []⟩⟩]]

def cycleWorld : World := (runRequests Env.reliable cycleRun (World.init .noop)).2

end Iam
