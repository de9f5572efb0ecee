import Iam.Properties.PolicyWrites
import Iam.Properties.Integrity

/-!
# Invariants of the policy tables

Three facts hold in every reachable world, and a later proof needs each to
say when `UpdatePolicy` succeeds and what etag it leaves.

* `policies.resource_id` is a unique index over all rows, live or
  soft-deleted, so the rows of one resource are one policy (`ResourceKeyed`).
* Every condition row names a binding row (`ConditionsHeld`):
  `BindingRepository.Create` points the condition it saves at the binding it
  inserts, and no row is ever removed.
* Every etag is `uuid.New().String()` of a draw made before the current tick
  (`EtagsDrawn`): `Policy.BeforeCreate` and `Policy.BeforeUpdate` draw the
  etag they write.  GORM also inserts the `Policy` a binding carries, with
  the etag the caller gave it, so this one holds when no binding sent carries
  one.
-/

namespace Iam

open Prog

/-! ## What the calls leave alone -/

def Call.writesPolicies : Call → Bool
  | .policyCreate _ | .policyUpdate _ | .policyDelete _ => true
  | .bindingCreate b => b.policy.isSome
  | _ => false

def Call.writesBindings : Call → Bool
  | .bindingCreate _ | .bindingDelete _ => true
  | _ => false

namespace World

variable (env : Env) (w : World)

theorem perform_policies {c : Call} (hc : c.writesPolicies = false) :
    (w.perform env c).2.store.policies = w.store.policies := by
  cases c
  case policyCreate | policyUpdate | policyDelete => cases hc
  case resourceCreate r =>
    exact write_frame env w Store.policies fun _ h => by
      obtain ⟨-, -, rfl⟩ := Store.resourceCreate_eq_ok.1 h; rfl
  case resourceUpdate r =>
    exact write_frame env w Store.policies fun _ h => by
      obtain ⟨-, rfl⟩ := Store.resourceUpdate_eq_ok.1 h; rfl
  case permissionCreate p =>
    exact write_frame env w Store.policies fun _ h => by
      obtain ⟨-, rfl⟩ := Store.permissionCreate_eq_ok.1 h; rfl
  case roleCreate r =>
    exact write_frame env w Store.policies fun _ h => by
      obtain ⟨-, _, -, rfl⟩ := Store.roleCreate_eq_ok.1 h; rfl
  case roleUpdate r =>
    exact write_frame env w Store.policies fun _ h => by
      obtain ⟨-, _, -, rfl⟩ := Store.roleUpdate_eq_ok.1 h; rfl
  case bindingCreate b =>
    exact write_frame env w Store.policies fun _ h =>
      (Store.bindingCreate_frame_of_policy (by simpa [Call.writesPolicies] using hc) h).2
  case resourceDelete | roleDelete | bindingDelete =>
    exact write_frame env w Store.policies fun _ h => by cases h; rfl
  all_goals exact congrArg Store.policies (perform_store env w _ rfl)

theorem perform_bindingRows {c : Call} (hc : c.writesBindings = false) :
    ((w.perform env c).2.store.bindings, (w.perform env c).2.store.conditions) =
      (w.store.bindings, w.store.conditions) := by
  have frame : ∀ {r : Except DbError Store}, (∀ s', r = .ok s' →
      (s'.bindings, s'.conditions) = (w.store.bindings, w.store.conditions)) →
      ((w.write env r).2.store.bindings, (w.write env r).2.store.conditions) =
        (w.store.bindings, w.store.conditions) := write_frame env w _
  cases c
  case bindingCreate | bindingDelete => cases hc
  case resourceCreate r =>
    exact frame fun _ h => by obtain ⟨-, -, rfl⟩ := Store.resourceCreate_eq_ok.1 h; rfl
  case resourceUpdate r =>
    exact frame fun _ h => by obtain ⟨-, rfl⟩ := Store.resourceUpdate_eq_ok.1 h; rfl
  case permissionCreate p =>
    exact frame fun _ h => by obtain ⟨-, rfl⟩ := Store.permissionCreate_eq_ok.1 h; rfl
  case roleCreate r =>
    exact frame fun _ h => by obtain ⟨-, _, -, rfl⟩ := Store.roleCreate_eq_ok.1 h; rfl
  case roleUpdate r =>
    exact frame fun _ h => by obtain ⟨-, _, -, rfl⟩ := Store.roleUpdate_eq_ok.1 h; rfl
  case policyCreate p =>
    exact frame fun _ h => by obtain ⟨-, -, rfl⟩ := Store.policyCreate_eq_ok.1 h; rfl
  case policyUpdate p =>
    exact frame fun _ h => by obtain ⟨-, -, rfl⟩ := Store.policyUpdate_eq_ok.1 h; rfl
  case resourceDelete | roleDelete | policyDelete => exact frame fun _ h => by cases h; rfl
  all_goals exact congrArg (fun s : Store => (s.bindings, s.conditions)) (perform_store env w _ rfl)

end World

/-! ## One policy per resource -/

namespace Store

def ResourceKeyed (s : Store) : Prop :=
  ∀ p ∈ s.policies, ∀ q ∈ s.policies,
    p.val.resourceID = q.val.resourceID → p.val.id = q.val.id

theorem ResourceKeyed.of_mem {s s' : Store} {v : PolicyRecord} (hs : s.ResourceKeyed)
    (hv : ∀ q ∈ s.policies, q.val.resourceID = v.resourceID → q.val.id = v.id)
    (h : ∀ p ∈ s'.policies, (∃ q ∈ s.policies, q.val = p.val) ∨ p.val = v) :
    s'.ResourceKeyed := by
  intro p hp q hq hpq
  rcases h p hp with ⟨p', hp', hpv⟩ | hpv <;> rcases h q hq with ⟨q', hq', hqv⟩ | hqv
  · rw [← hpv, ← hqv]; exact hs p' hp' q' hq' (by rw [hpv, hqv]; exact hpq)
  · rw [← hpv, hqv]; exact hv p' hp' (by rw [hpv, hpq, hqv])
  · rw [hpv, ← hqv]; exact (hv q' hq' (by rw [hqv, ← hpq, hpv])).symm
  · rw [hpv, hqv]

theorem empty_resourceKeyed : Store.empty.ResourceKeyed := by
  simp [ResourceKeyed, Store.empty]

theorem ResourceKeyed.congr {s s' : Store} (h : s'.policies = s.policies)
    (hs : s.ResourceKeyed) : s'.ResourceKeyed := by
  unfold ResourceKeyed; rw [h]; exact hs

theorem ResourceKeyed.policyCreate {s s' : Store} {p : Policy} (hs : s.ResourceKeyed)
    (h : s.policyCreate p = .ok s') : s'.ResourceKeyed := by
  obtain ⟨hnew, -, rfl⟩ := policyCreate_eq_ok.1 h
  simp only [Bool.or_eq_false_iff, List.any_eq_false, beq_iff_eq] at hnew
  refine hs.of_mem (v := PolicyRecord.ofPolicy p) (fun q hq hr => absurd hr (hnew.2 q hq))
    fun r hr => ?_
  rcases List.mem_append.1 hr with hr | hr
  · exact .inl ⟨r, hr, rfl⟩
  · exact .inr (by rw [List.mem_singleton.1 hr])

theorem TreeStep.resourceKeyed {s s' : Store} (h : TreeStep s s') (hs : s.ResourceKeyed) :
    s'.ResourceKeyed := by
  cases h with
  | policyCreate h => exact hs.policyCreate h
  | resourceCreate h => obtain ⟨-, -, rfl⟩ := resourceCreate_eq_ok.1 h; exact hs
  | setParentID _ _ h => subst h; exact hs
  | setPolicyID _ _ h => subst h; exact hs
  | bindingInsert _ h => exact hs.congr (bindingInsert_frame h).2.1

theorem ResourceKeyed.bindingCreate {s s' : Store} {b : Binding} (hs : s.ResourceKeyed)
    (h : s.bindingCreate b = .ok s') : s'.ResourceKeyed :=
  bindingCreate_inv (fun _ _ h => h.resourceKeyed) (fun _ _ h hs => hs.congr h.frame.2.1)
    (fun _ _ h hs => hs.congr (bindingInsert_frame h).2.1) h hs

end Store

open Store in
theorem World.perform_resourceKeyed (env : Env) (w : World) (c : Call)
    (hs : w.store.ResourceKeyed) : (w.perform env c).2.store.ResourceKeyed := by
  cases hc : c.writesPolicies
  · unfold ResourceKeyed
    rw [World.perform_policies env w hc]
    exact hs
  cases c <;> simp only [Call.writesPolicies, Bool.false_eq_true] at hc
  case policyCreate p => exact World.write_inv env w hs fun _ h => hs.policyCreate h
  case bindingCreate b => exact World.write_inv env w hs fun _ h => hs.bindingCreate h
  case policyUpdate p =>
    refine World.write_inv env w hs fun s' h => ?_
    obtain ⟨hother, -, rfl⟩ := policyUpdate_eq_ok.1 h
    simp only [List.any_eq_false, Bool.and_eq_true, beq_iff_eq, bne_iff_ne, ne_eq, not_and,
      not_not] at hother
    refine hs.of_mem (v := PolicyRecord.ofPolicy p) (fun q hq hr => hother q hq hr)
      fun r hr => ?_
    rcases Table.mem_save hr with hr | hr
    · exact .inl ⟨r, hr, rfl⟩
    · exact .inr hr
  case policyDelete id =>
    refine World.write_inv env w hs fun s' h => ?_
    cases h
    intro p hp q hq hpq
    obtain ⟨p', hp', hpv⟩ := Table.mem_softDelete hp
    obtain ⟨q', hq', hqv⟩ := Table.mem_softDelete hq
    rw [← hpv, ← hqv] at hpq ⊢
    exact hs p' hp' q' hq' hpq

/-! ## Conditions name bindings -/

def Call.conditionNamesBinding : Call → Bool
  | .bindingCreate b => b.condition.all (·.bindingID == b.id)
  | _ => true

namespace Store

def ConditionsHeld (s : Store) : Prop :=
  ∀ c ∈ s.conditions, Table.holds BindingRecord.id s.bindings c.val.bindingID = true

theorem empty_conditionsHeld : Store.empty.ConditionsHeld := by
  simp [ConditionsHeld, Store.empty]

theorem saveCondition_of_new {s : Store} {c : Condition}
    (h : ∀ row ∈ s.conditions, row.val.bindingID ≠ c.bindingID) :
    ∃ cs, s.saveCondition c = .ok cs := by
  unfold saveCondition
  rw [if_neg (by simpa using fun row hr hb => absurd hb (h row hr))]
  split <;> exact ⟨_, rfl⟩

theorem mem_saveCondition {s : Store} {c : Condition} {cs : List (Row Condition)}
    (h : s.saveCondition c = .ok cs) {row : Row Condition} (hr : row ∈ cs) :
    row ∈ s.conditions ∨ row.val.bindingID = c.bindingID := by
  unfold saveCondition at h
  split at h
  · cases h
  split at h <;> cases h
  · obtain ⟨r, hr', rfl⟩ := List.mem_map.1 hr
    split
    · exact .inr rfl
    · exact .inl hr'
  · rcases List.mem_append.1 hr with hr | hr
    · exact .inl hr
    · exact .inr (by rw [List.mem_singleton.1 hr])

theorem ConditionsHeld.withBinding {s s' : Store} {b : Binding} (hs : s.ConditionsHeld)
    (hc : b.condition.all (·.bindingID == b.id) = true) (h : withBinding b s = .ok s') :
    s'.ConditionsHeld := by
  have hb := withBinding_eq_ok h
  have hold : ∀ x, Table.holds BindingRecord.id s.bindings x = true →
      Table.holds BindingRecord.id s'.bindings x = true := fun x hx => by
    rw [hb]; simp [hx]
  intro row hr
  unfold Store.withBinding at h
  split at h
  · cases h; exact hold _ (hs row hr)
  · next c hcond =>
    simp only [Bind.bind, Except.bind] at h
    split at h <;> cases h
    next cs hsave =>
    rcases mem_saveCondition hsave hr with hr | hr
    · exact hold _ (hs row hr)
    · simp only [hcond, Option.all_some, beq_iff_eq] at hc
      simp [hr, hc, Table.holds, BindingRecord.ofBinding]

theorem ConditionsHeld.mono {s s' : Store} (hs : s.ConditionsHeld)
    (hc : s'.conditions = s.conditions)
    (hb : ∀ x, Table.holds BindingRecord.id s.bindings x = true →
      Table.holds BindingRecord.id s'.bindings x = true) : s'.ConditionsHeld := by
  intro c hc'
  rw [hc] at hc'
  exact hb _ (hs c hc')

theorem holds_setPolicyID (s : Store) (r : BindingRecord) (x : UUID) :
    Table.holds BindingRecord.id (s.setPolicyID r).bindings x =
      Table.holds BindingRecord.id s.bindings x := by
  simp only [setPolicyID, Table.holds, List.any_map]
  congr 1
  funext row
  simp only [Function.comp]
  split <;> rfl

theorem TreeStep.conditionsHeld {s s' : Store} (h : TreeStep s s') (hs : s.ConditionsHeld) :
    s'.ConditionsHeld := by
  cases h with
  | resourceCreate h => obtain ⟨-, -, rfl⟩ := resourceCreate_eq_ok.1 h; exact hs
  | setParentID _ _ h => subst h; exact hs
  | policyCreate h => obtain ⟨-, -, rfl⟩ := policyCreate_eq_ok.1 h; exact hs
  | setPolicyID _ _ h => subst h; exact hs.mono rfl fun x hx => (holds_setPolicyID _ _ x).trans hx
  | bindingInsert hc h => exact hs.withBinding (by simp [hc]) (bindingInsert_eq_ok.1 h).2.2.2.2

theorem RoleStep.conditionsHeld {s s' : Store} (h : RoleStep s s') (hs : s.ConditionsHeld) :
    s'.ConditionsHeld :=
  hs.mono h.frame.2.2.2 fun _ hx => by rwa [h.frame.2.2.1]

theorem ConditionsHeld.bindingCreate {s s' : Store} {b : Binding} (hs : s.ConditionsHeld)
    (hc : b.condition.all (·.bindingID == b.id) = true) (h : s.bindingCreate b = .ok s') :
    s'.ConditionsHeld :=
  bindingCreate_inv (fun _ _ h => h.conditionsHeld) (fun _ _ h => h.conditionsHeld)
    (fun _ _ h hs => hs.withBinding (b := b.setupReferences) hc (bindingInsert_eq_ok.1 h).2.2.2.2)
    h hs

theorem ConditionsHeld.withBinding_ok {s : Store} {b : Binding} (hs : s.ConditionsHeld)
    (hid : Table.holds BindingRecord.id s.bindings b.id = false)
    (hc : b.condition.all (·.bindingID == b.id) = true) :
    ∃ s', Store.withBinding b s = .ok s' ∧ s'.ConditionsHeld := by
  let s₁ : Store := { s with bindings := s.bindings ++ [⟨BindingRecord.ofBinding b, false⟩] }
  suffices ∃ cs, Store.withBinding b s = .ok { s₁ with conditions := cs } from
    let ⟨_, hw⟩ := this; ⟨_, hw, hs.withBinding hc hw⟩
  cases hcond : b.condition with
  | none => exact ⟨_, by simp only [Store.withBinding, hcond]; rfl⟩
  | some c =>
    simp only [hcond, Option.all_some, beq_iff_eq] at hc
    obtain ⟨cs, hcs⟩ := saveCondition_of_new (c := c) (s := s₁)
      fun row hr h => by simpa [h, hc, hid] using hs row hr
    exact ⟨cs, by simp only [Store.withBinding, hcond, hcs]; rfl⟩

end Store

theorem World.perform_conditionsHeld (env : Env) (w : World) {c : Call}
    (hc : c.conditionNamesBinding = true) (hs : w.store.ConditionsHeld) :
    (w.perform env c).2.store.ConditionsHeld := by
  cases hw : c.writesBindings
  · have h := World.perform_bindingRows env w hw
    simp only [Prod.mk.injEq] at h
    unfold Store.ConditionsHeld
    rw [h.1, h.2]
    exact hs
  cases c <;> simp only [Call.writesBindings, Bool.false_eq_true] at hw
  case bindingCreate b => exact World.write_inv env w hs fun _ h => hs.bindingCreate hc h
  case bindingDelete id =>
    refine World.write_inv env w hs fun s' h => ?_
    cases h
    intro c hc
    simpa [Store.bindingDelete] using hs c hc

theorem only_conditionNamesBinding (req : Request) :
    Only (fun c => c.conditionNamesBinding = true) req.prog := by
  cases req
  case createPolicy r bs =>
    exact (only_createPolicy (P := fun c => c.conditionNamesBinding = true) rfl (fun _ => rfl)
      rfl (fun _ => rfl) r bs fun _ _ _ _ h => h).map _
  case updatePolicy r bs e =>
    exact (only_updatePolicy (P := fun c => c.conditionNamesBinding = true) (fun _ => rfl) rfl
      (fun _ => rfl) (fun _ => rfl) rfl (fun _ => rfl) r bs e fun _ _ _ _ h => h).map _
  case createBinding r roleID members c =>
    exact (only_createBinding (P := fun c => c.conditionNamesBinding = true) (fun _ => rfl) rfl
      (fun _ => rfl) (fun _ _ h => h) rfl (fun _ => rfl) r roleID members c).map _
  all_goals
    simp [Request.prog, checkPermission, only_checkPermissionWith, only_getEffectivePermissions,
      Call.conditionNamesBinding, Iam.createResource, getResource, Iam.updateResource,
      deleteResource, createPermission, createRole, getRole, updateRole, deleteRole, getPolicy,
      deletePolicy, deleteBinding, ResourceRepository.create, ResourceRepository.getByID,
      ResourceRepository.update, ResourceRepository.delete, PermissionRepository.create,
      PermissionRepository.getByIDs, RoleRepository.create, RoleRepository.getByID,
      RoleRepository.update, RoleRepository.delete, PolicyRepository.getByResourceID,
      PolicyRepository.delete, BindingRepository.delete, Resource.beforeCreate,
      Permission.beforeCreate, Role.beforeCreate, freshID, newUUID, cacheClear, lift,
      Call.ForallReply]

/-! ## Etags are drawn ids -/

namespace Store

def EtagsDrawn (env : Env) (t : Nat) (s : Store) : Prop :=
  ∀ p ∈ s.policies, ∃ k < t, p.val.etag = UUID.string (env.uuid k)

theorem EtagsDrawn.mono {env : Env} {t t' : Nat} {s : Store} (h : s.EtagsDrawn env t)
    (ht : t ≤ t') : s.EtagsDrawn env t' :=
  fun p hp => let ⟨k, hk, he⟩ := h p hp; ⟨k, by omega, he⟩

end Store

def Call.setsEtag : Call → Bool
  | .policyCreate _ | .policyUpdate _ => true
  | .bindingCreate b => b.policy.isSome
  | _ => false

theorem World.perform_etagsDrawn (env : Env) (w : World) {c : Call} {t : Nat}
    (hc : c.setsEtag = false) (hs : w.store.EtagsDrawn env t) :
    (w.perform env c).2.store.EtagsDrawn env t := by
  cases hp : c.writesPolicies
  · unfold Store.EtagsDrawn
    rw [World.perform_policies env w hp]
    exact hs
  cases c
  case policyCreate | policyUpdate => cases hc
  case policyDelete id =>
    refine World.write_inv env w hs fun s' h => ?_
    cases h
    intro p hp
    obtain ⟨p', hp', hpv⟩ := Table.mem_softDelete hp
    exact hpv ▸ hs p' hp'
  case bindingCreate => exact absurd (hc.symm.trans hp) Bool.false_ne_true
  all_goals cases hp

namespace Prog

variable {α β : Type} {env : Env}

def KeepsEtags (env : Env) (x : Prog α) : Prop :=
  ∀ w : World, w.store.EtagsDrawn env w.tick →
    (x.exec env w).2.store.EtagsDrawn env (x.exec env w).2.tick

theorem keepsEtags_pure (a : α) : KeepsEtags env (pure a) := fun _ h => h

theorem KeepsEtags.bind {x : Prog α} {f : α → Prog β} (hx : KeepsEtags env x)
    (hf : ∀ a, KeepsEtags env (f a)) : KeepsEtags env (x >>= f) := fun w h => by
  rw [Prog.exec_bind]
  exact hf _ _ (hx w h)

theorem keepsEtags_map_iff (f : α → β) {x : Prog α} :
    KeepsEtags env (f <$> x) ↔ KeepsEtags env x := by
  simp only [KeepsEtags, Prog.exec_map]

theorem Only.keepsEtags {x : Prog α} (hx : Only (fun c => c.setsEtag = false) x) :
    KeepsEtags env x := by
  induction x with
  | pure a => exact keepsEtags_pure a
  | call c k ih =>
    intro w h
    rw [Prog.exec_call]
    refine ih _ (hx.2 _) _ ((World.perform_etagsDrawn env w hx.1 h).mono ?_)
    rw [World.perform_tick]
    omega

end Prog

theorem keepsEtags_policyRepository_create (env : Env) (r : UUID) :
    KeepsEtags env (PolicyRepository.create (newPolicy r)) := fun w h => by
  rw [policyRepository_create_exec]
  dsimp only
  simp only [World.write_tick, World.next_tick]
  refine World.write_inv env _ (h.mono (by omega)) fun s' hs => ?_
  obtain ⟨-, -, rfl⟩ := Store.policyCreate_eq_ok.1 hs
  intro p hp
  rcases List.mem_append.1 hp with hp | hp
  · exact (h.mono (by omega)) p hp
  · rw [List.mem_singleton.1 hp]
    exact ⟨w.tick + 1, by omega, rfl⟩

theorem keepsEtags_policyRepository_update (env : Env) (p : Policy) :
    KeepsEtags env (PolicyRepository.update p) := fun w h => by
  rw [policyRepository_update_exec]
  dsimp only
  simp only [World.write_tick, World.next_tick]
  refine World.write_inv env _ (h.mono (by omega)) fun s' hs => ?_
  obtain ⟨-, -, rfl⟩ := Store.policyUpdate_eq_ok.1 hs
  intro q hq
  rcases Table.mem_save hq with hq | hq
  · exact (h.mono (by omega)) q hq
  · rw [hq]
    exact ⟨w.tick, by omega, rfl⟩

theorem only_createBindingIn_keepsEtag (p : Policy) (roleID : UUID) (members : List GoString) :
    Only (fun c => c.setsEtag = false) (createBindingIn p roleID members) :=
  only_createBindingIn (P := fun c => c.setsEtag = false) rfl p
    (fun _ _ hp _ => by simp [Call.setsEtag, (Binding.plain_iff.1 hp).2]) rfl (fun _ => rfl)
    roleID members

theorem keepsEtags_prog (env : Env) (req : Request) (hreq : req.NoPolicyAssoc) :
    KeepsEtags env req.prog := by
  cases req
  case createPolicy r bs =>
    refine (keepsEtags_map_iff _).2
      ((keepsEtags_policyRepository_create env r).bind fun ⟨policy, res⟩ => ?_)
    rcases res with _ | ⟨⟩
    · exact keepsEtags_pure _
    · refine Only.keepsEtags ((only_createBindings (P := fun c => c.setsEtag = false) rfl _ bs
        fun b hb _ _ hc _ => by simp [Call.setsEtag, hc.1 (hreq b hb)]).bind fun x => ?_)
      rcases x with _ | ⟨⟩ <;>
        simp [cacheClear, PolicyRepository.getByID, lift, Call.ForallReply, Call.setsEtag]
  case updatePolicy r bs etag =>
    refine (keepsEtags_map_iff _).2 (Only.keepsEtags
      (by simp [PolicyRepository.getByResourceID, lift, Call.ForallReply, Call.setsEtag]) |>.bind
      fun res => ?_)
    rcases res with _ | _ | policy
    · exact keepsEtags_pure _
    · exact keepsEtags_pure _
    dsimp only
    split
    · exact keepsEtags_pure _
    refine (keepsEtags_pure _).bind fun _ => ?_
    refine (Only.keepsEtags (only_deleteBindings (P := fun c => c.setsEtag = false)
      (fun _ => rfl) _)).bind fun x => ?_
    rcases x with _ | ⟨⟩
    · exact keepsEtags_pure _
    refine (Only.keepsEtags (only_createBindings (P := fun c => c.setsEtag = false) rfl _ bs
      fun b hb _ _ hc _ => by simp [Call.setsEtag, hc.1 (hreq b hb)])).bind fun x => ?_
    rcases x with _ | ⟨⟩
    · exact keepsEtags_pure _
    refine (keepsEtags_policyRepository_update env policy).bind fun ⟨_, res⟩ => ?_
    rcases res with _ | ⟨⟩
    · exact keepsEtags_pure _
    · exact Only.keepsEtags (by
        simp [cacheClear, PolicyRepository.getByID, lift, Call.ForallReply, Call.setsEtag])
  case createBinding r roleID members c =>
    refine (keepsEtags_map_iff _).2 (Only.keepsEtags
      (by simp [PolicyRepository.getByResourceID, lift, Call.ForallReply, Call.setsEtag]) |>.bind
      fun res => ?_)
    rcases res with _ | _ | policy
    · exact keepsEtags_pure _
    · refine (keepsEtags_policyRepository_create env r).bind fun ⟨policy, res⟩ => ?_
      rcases res with _ | ⟨⟩
      · exact keepsEtags_pure _
      · exact Only.keepsEtags (only_createBindingIn_keepsEtag _ _ _)
    · exact Only.keepsEtags (only_createBindingIn_keepsEtag _ _ _)
  all_goals
    refine (keepsEtags_map_iff _).2 (Only.keepsEtags ?_)
    simp [checkPermission, only_checkPermissionWith, only_getEffectivePermissions,
      Call.setsEtag, Iam.createResource, getResource, Iam.updateResource, deleteResource,
      createPermission, createRole, getRole, updateRole, deleteRole, getPolicy, deletePolicy,
      deleteBinding, ResourceRepository.create, ResourceRepository.getByID,
      ResourceRepository.update, ResourceRepository.delete, PermissionRepository.create,
      PermissionRepository.getByIDs, RoleRepository.create, RoleRepository.getByID,
      RoleRepository.update, RoleRepository.delete, PolicyRepository.getByResourceID,
      PolicyRepository.delete, BindingRepository.delete, Resource.beforeCreate,
      Permission.beforeCreate, Role.beforeCreate, freshID, newUUID, cacheClear, lift,
      Call.ForallReply]

/-! ## Every reachable world -/

structure World.PolicyTables (env : Env) (w : World) : Prop where
  keyed : w.store.ResourceKeyed
  conditions : w.store.ConditionsHeld
  etags : w.store.EtagsDrawn env w.tick

section Reachable

variable {env : Env} {ok : World → Request → Prop} {w : World}

theorem Reachable.resourceKeyed (h : Reachable env ok w) : w.store.ResourceKeyed :=
  h.store_inv Store.empty_resourceKeyed fun _ req _ hs =>
    Prog.exec_inv env (fun c w => World.perform_resourceKeyed env w c) req.prog hs

theorem Reachable.conditionsHeld (h : Reachable env ok w) : w.store.ConditionsHeld :=
  h.store_inv Store.empty_conditionsHeld fun _ req _ hs =>
    (only_conditionNamesBinding req).exec_inv env
      (fun _ w hc => World.perform_conditionsHeld env w hc) hs

theorem Reachable.etagsDrawn (hok : ∀ w req, ok w req → req.NoPolicyAssoc)
    (h : Reachable env ok w) : w.store.EtagsDrawn env w.tick := by
  induction h with
  | init => exact fun _ h => by simp [Store.empty] at h
  | step req _ hreq ih => exact keepsEtags_prog env req (hok _ _ hreq) _ ih

theorem Reachable.policyTables (hok : ∀ w req, ok w req → req.NoPolicyAssoc)
    (h : Reachable env ok w) : w.PolicyTables env :=
  ⟨h.resourceKeyed, h.conditionsHeld, h.etagsDrawn hok⟩

end Reachable

end Iam
