import Iam.Service.Evaluator

/-!
# The evaluator against fixed repository answers

`Repos` is any store as the evaluator sees it when every repository call
succeeds: a resource lookup, an ancestor list, and a policy (with its ordered
bindings, their members, roles and conditions) per resource.  `Repos.answer`
answers the evaluator's reads from it and makes the cache miss.  Against
these answers `CheckPermission` grants exactly when some resource of the
chain has a granting binding, reports the first one in chain and policy
order, and writes the cache only on a grant; `GetEffectivePermissions`
returns exactly the permissions `CheckPermission` grants.
-/

namespace Iam

open Prog

structure Repos where
  resource : UUID → Option Resource
  ancestors : UUID → List Resource
  policy : UUID → Option Policy

def Repos.answer (repos : Repos) : (c : Call) → c.Reply
  | .cacheGet _ => none
  | .resourceGetByID id => .ok (repos.resource id)
  | .resourceGetAncestors id => .ok (repos.ancestors id)
  | .policyGetByResourceID id => .ok (repos.policy id)
  | .cacheSet _ _ | .cacheClear => ()
  | .newUUID => UUID.nil
  | .permissionGetByIDs _ => .ok []
  | .roleGetByID _ | .policyGetByID _ | .bindingGetByID _ => .ok none
  | .resourceCreate _ | .resourceUpdate _ | .resourceDelete _ | .permissionCreate _
  | .roleCreate _ | .roleUpdate _ | .roleDelete _ | .policyCreate _ | .policyUpdate _
  | .policyDelete _ | .bindingCreate _ | .bindingDelete _ => .ok ()

def Repos.chain (repos : Repos) (r : UUID) : List UUID := r :: (repos.ancestors r).map (·.id)

section Grants

variable (evaluate : Condition → Context → Bool) (repos : Repos) (p x : GoString)
  (ctx : Context)

theorem Binding.role_of_grants {b : Binding} (h : b.grants evaluate p x ctx = true) :
    ∃ role, b.role = some role := by
  cases hr : b.role <;> simp_all [Binding.grants]

theorem matchBindings_cons (a : UUID) (b : Binding) (rest : List Binding) :
    matchBindings evaluate p a x ctx (b :: rest) =
      if b.grants evaluate p x ctx then b.role.map fun role => grantReason role.name a
      else matchBindings evaluate p a x ctx rest := by
  cases hm : b.hasMember p <;> cases hc : b.condition <;> cases hr : b.role <;>
    simp [matchBindings, Binding.grants, hm, hc, hr]
  all_goals split <;> simp_all

theorem matchBindings_eq_none_iff (a : UUID) (bs : List Binding) :
    matchBindings evaluate p a x ctx bs = none ↔
      ∀ b ∈ bs, b.grants evaluate p x ctx = false := by
  induction bs with
  | nil => simp [matchBindings]
  | cons b rest ih =>
      rw [matchBindings_cons]
      cases hg : b.grants evaluate p x ctx
      · simp [ih, hg]
      · obtain ⟨role, hr⟩ := Binding.role_of_grants evaluate p x ctx hg
        simp [hg, hr]

theorem matchBindings_eq_some (a : UUID) (bs : List Binding) (reason : GoString)
    (h : matchBindings evaluate p a x ctx bs = some reason) :
    ∃ bs₁ b bs₂ role, bs = bs₁ ++ b :: bs₂ ∧
      (∀ b' ∈ bs₁, b'.grants evaluate p x ctx = false) ∧
      b.grants evaluate p x ctx = true ∧ b.role = some role ∧ reason = grantReason role.name a := by
  induction bs with
  | nil => simp [matchBindings] at h
  | cons b rest ih =>
      rw [matchBindings_cons] at h
      cases hg : b.grants evaluate p x ctx
      · simp only [hg] at h
        obtain ⟨bs₁, b', bs₂, role, rfl, hpre, hrest⟩ := ih h
        exact ⟨b :: bs₁, b', bs₂, role, rfl, by simpa [hg] using hpre, hrest⟩
      · simp only [hg, if_true, Option.map_eq_some'] at h
        obtain ⟨role, hr, rfl⟩ := h
        exact ⟨[], b, rest, role, rfl, by simp, hg, hr, rfl⟩

def Repos.GrantsAt (a : UUID) : Prop :=
  ∃ P, repos.policy a = some P ∧ ∃ b ∈ P.bindings, b.grants evaluate p x ctx = true

/--
`reason` names the role and the resource of the first granting binding along
`chain`: no earlier resource grants, and no earlier binding of the policy does.
-/
def Repos.FirstGrant (chain : List UUID) (reason : GoString) : Prop :=
  ∃ pre a post P bs₁ b bs₂ role, chain = pre ++ a :: post ∧
    (∀ a' ∈ pre, ¬ repos.GrantsAt evaluate p x ctx a') ∧ repos.policy a = some P ∧
    P.bindings = bs₁ ++ b :: bs₂ ∧ (∀ b' ∈ bs₁, b'.grants evaluate p x ctx = false) ∧
    b.grants evaluate p x ctx = true ∧ b.role = some role ∧ reason = grantReason role.name a

def Repos.grantAt (a : UUID) : Option GoString :=
  (repos.policy a).bind fun P => matchBindings evaluate p a x ctx P.bindings

theorem Repos.grantAt_eq_none_iff (a : UUID) :
    repos.grantAt evaluate p x ctx a = none ↔ ¬ repos.GrantsAt evaluate p x ctx a := by
  unfold Repos.grantAt Repos.GrantsAt
  cases repos.policy a <;> simp [matchBindings_eq_none_iff]

theorem run_checkChain_cons (key : GoString) (a : UUID) (rest : List UUID) :
    (checkChain evaluate p x ctx key (a :: rest)).run repos.answer =
      match repos.grantAt evaluate p x ctx a with
      | some reason => ([.policyGetByResourceID a, .cacheSet key true], ⟨true, reason, none⟩)
      | none =>
        (.policyGetByResourceID a :: ((checkChain evaluate p x ctx key rest).run repos.answer).1,
          ((checkChain evaluate p x ctx key rest).run repos.answer).2) := by
  simp only [checkChain, checkResourcePermissionWith, PolicyRepository.getByResourceID, lift,
    cacheSet, Repos.grantAt, run_bind]
  simp only [run_call, Repos.answer]
  cases repos.policy a with
  | none => simp
  | some P => cases h : matchBindings evaluate p a x ctx P.bindings <;> simp [h, run_bind]

structure WalkSpec (chain : List UUID) (key : GoString) (r : List Call × Decision) : Prop where
  no_error : r.2.err = none
  allowed_iff : r.2.allowed = true ↔ ∃ a ∈ chain, repos.GrantsAt evaluate p x ctx a
  first_grant : r.2.allowed = true → repos.FirstGrant evaluate p x ctx chain r.2.reason
  grant_writes : r.2.allowed = true → r.1.filter Call.writesCache = [.cacheSet key true]
  deny_writes : r.2.allowed = false → r.1.filter Call.writesCache = []

theorem run_checkChain (key : GoString) (chain : List UUID) :
    WalkSpec evaluate repos p x ctx chain key
      ((checkChain evaluate p x ctx key chain).run repos.answer) := by
  induction chain with
  | nil => exact ⟨rfl, by simp [checkChain], by simp [checkChain], by simp [checkChain],
      fun _ => rfl⟩
  | cons a rest ih =>
      rw [run_checkChain_cons]
      cases h : repos.grantAt evaluate p x ctx a with
      | some reason =>
          have hg : repos.GrantsAt evaluate p x ctx a := by
            by_contra hn; simp [(Repos.grantAt_eq_none_iff ..).2 hn] at h
          obtain ⟨P, hP, hm⟩ := Option.bind_eq_some.1 h
          obtain ⟨bs₁, b, bs₂, role, hbs, hpre, hb, hr, rfl⟩ :=
            matchBindings_eq_some evaluate p x ctx a P.bindings _ hm
          exact ⟨rfl, iff_of_true rfl ⟨a, List.mem_cons_self _ _, hg⟩,
            fun _ => ⟨[], a, rest, P, bs₁, b, bs₂, role, rfl, by simp, hP, hbs, hpre, hb, hr,
              rfl⟩,
            fun _ => rfl, by simp⟩
      | none =>
          have hn := (Repos.grantAt_eq_none_iff ..).1 h
          refine ⟨ih.no_error, ?_, fun ha => ?_,
            fun ha => by simp [Call.writesCache, ih.grant_writes ha],
            fun ha => by simp [Call.writesCache, ih.deny_writes ha]⟩
          · simp only [ih.allowed_iff, List.mem_cons, exists_eq_or_imp, hn, false_or]
          · obtain ⟨pre, a', post, P, bs₁, b, bs₂, role, hc, hpre, hrest⟩ :=
              ih.first_grant ha
            exact ⟨a :: pre, a', post, P, bs₁, b, bs₂, role, by simp [hc],
              List.forall_mem_cons.2 ⟨hn, hpre⟩, hrest⟩

theorem run_checkPermissionWith (r : UUID) :
    (checkPermissionWith evaluate p r x ctx).run repos.answer =
      match repos.resource r with
      | none => ([.cacheGet (generateCacheKey p (UUID.string r) x), .resourceGetByID r],
          ⟨false, lit "Resource not found", none⟩)
      | some _ =>
        (.cacheGet (generateCacheKey p (UUID.string r) x) :: .resourceGetByID r ::
          .resourceGetAncestors r :: ((checkChain evaluate p x ctx
            (generateCacheKey p (UUID.string r) x) (repos.chain r)).run repos.answer).1,
          ((checkChain evaluate p x ctx (generateCacheKey p (UUID.string r) x)
            (repos.chain r)).run repos.answer).2) := by
  simp only [checkPermissionWith, cacheGet, ResourceRepository.getByID,
    ResourceRepository.getAncestors, lift, run_bind, run_call, Repos.answer]
  cases h : repos.resource r <;> simp [h, run_bind, Repos.chain, Repos.answer]

theorem checkPermissionWith_spec (r : UUID) :
    let run := (checkPermissionWith evaluate p r x ctx).run repos.answer
    run.2.err = none ∧
    (run.2.allowed = true ↔ (repos.resource r).isSome ∧
      ∃ a ∈ repos.chain r, repos.GrantsAt evaluate p x ctx a) ∧
    (run.2.allowed = true → repos.FirstGrant evaluate p x ctx (repos.chain r) run.2.reason ∧
      run.1.filter Call.writesCache = [.cacheSet (generateCacheKey p (UUID.string r) x) true]) ∧
    (run.2.allowed = false → run.1.filter Call.writesCache = []) := by
  rw [run_checkPermissionWith]
  cases repos.resource r with
  | none => simp [Call.writesCache]
  | some _ =>
      have w := run_checkChain evaluate repos p x ctx (generateCacheKey p (UUID.string r) x)
        (repos.chain r)
      exact ⟨w.no_error, by simpa using w.allowed_iff, fun h =>
        ⟨w.first_grant h, by simpa [Call.writesCache] using w.grant_writes h⟩,
        fun h => by simpa [Call.writesCache] using w.deny_writes h⟩

end Grants

theorem checkPermission_spec (repos : Repos) (p : GoString) (r : UUID) (x : GoString)
    (ctx : Context) :
    let run := (checkPermission p r x ctx).run repos.answer
    run.2.err = none ∧
    (run.2.allowed = true ↔ (repos.resource r).isSome ∧
      ∃ a ∈ repos.chain r, repos.GrantsAt evaluateCondition p x ctx a) ∧
    (run.2.allowed = true →
      repos.FirstGrant evaluateCondition p x ctx (repos.chain r) run.2.reason ∧
      run.1.filter Call.writesCache = [.cacheSet (generateCacheKey p (UUID.string r) x) true]) ∧
    (run.2.allowed = false → run.1.filter Call.writesCache = []) :=
  checkPermissionWith_spec evaluateCondition repos p x ctx r

/-! ## `GetEffectivePermissions` -/

section Effective

variable (repos : Repos) (p : GoString)

def MemberRoleIn (bs : List Binding) (role : Role) : Prop :=
  ∃ b ∈ bs, b.hasMember p = true ∧ b.role = some role

def Repos.MemberRole (chain : List UUID) (role : Role) : Prop :=
  ∃ a ∈ chain, ∃ P, repos.policy a = some P ∧ MemberRoleIn p P.bindings role

theorem mem_insertKey {k y : GoString} {m : List GoString} :
    y ∈ insertKey k m ↔ k = y ∨ y ∈ m := by
  unfold insertKey
  split
  · exact ⟨Or.inr, by rintro (rfl | h) <;> assumption⟩
  · simp [or_comm, eq_comm]

theorem mem_foldl_insertKey (perms : List Permission) (acc : List GoString) (y : GoString) :
    y ∈ perms.foldl (fun m perm => insertKey perm.name m) acc ↔
      y ∈ acc ∨ ∃ perm ∈ perms, perm.name = y := by
  induction perms generalizing acc with
  | nil => simp
  | cons perm rest ih =>
      simp only [List.foldl_cons, ih, mem_insertKey, List.mem_cons, exists_eq_or_imp]
      tauto

theorem mem_collectBindings (bs : List Binding) (acc : List GoString × List GoString)
    (y : GoString) :
    (y ∈ (collectBindings p bs acc).1 ↔
      y ∈ acc.1 ∨
        ∃ role, MemberRoleIn p bs role ∧ ∃ perm ∈ role.permissions, perm.name = y) ∧
    (y ∈ (collectBindings p bs acc).2 ↔
      y ∈ acc.2 ∨ ∃ role, MemberRoleIn p bs role ∧ role.name = y) := by
  induction bs generalizing acc with
  | nil => simp [collectBindings, MemberRoleIn]
  | cons b rest ih =>
      obtain ⟨perms, roles⟩ := acc
      have hcons : ∀ role, MemberRoleIn p (b :: rest) role ↔
          (b.hasMember p = true ∧ b.role = some role) ∨ MemberRoleIn p rest role := by
        simp [MemberRoleIn]
      simp only [hcons, or_and_right, exists_or]
      cases hm : b.hasMember p <;> cases hr : b.role <;>
        simp [collectBindings, hm, hr, ih, mem_foldl_insertKey, mem_insertKey, or_assoc,
          or_left_comm]

theorem Repos.memberRole_cons (a : UUID) (rest : List UUID) (role : Role) :
    repos.MemberRole p (a :: rest) role ↔
      (∃ P, repos.policy a = some P ∧ MemberRoleIn p P.bindings role) ∨
        repos.MemberRole p rest role := by
  simp [Repos.MemberRole]

theorem run_collectChain_cons (a : UUID) (rest : List UUID) (acc : List GoString × List GoString) :
    ((collectChain p (a :: rest) acc).run repos.answer).2 =
      ((collectChain p rest (match repos.policy a with
        | some P => collectBindings p P.bindings acc
        | none => acc)).run repos.answer).2 := by
  simp only [collectChain, PolicyRepository.getByResourceID, lift, run_bind, run_call,
    Repos.answer]
  cases repos.policy a <;> rfl

theorem mem_run_collectChain (chain : List UUID) (acc : List GoString × List GoString)
    (y : GoString) :
    (y ∈ ((collectChain p chain acc).run repos.answer).2.1 ↔ y ∈ acc.1 ∨
      ∃ role, repos.MemberRole p chain role ∧ ∃ perm ∈ role.permissions, perm.name = y) ∧
    (y ∈ ((collectChain p chain acc).run repos.answer).2.2 ↔ y ∈ acc.2 ∨
      ∃ role, repos.MemberRole p chain role ∧ role.name = y) := by
  induction chain generalizing acc with
  | nil => simp [collectChain, Repos.MemberRole]
  | cons a rest ih =>
      rw [run_collectChain_cons, (ih _).1, (ih _).2]
      simp only [Repos.memberRole_cons, or_and_right, exists_or]
      cases h : repos.policy a with
      | none => simp
      | some P => simp [(mem_collectBindings p P.bindings acc y).1,
          (mem_collectBindings p P.bindings acc y).2, or_assoc]

theorem run_getEffectivePermissions (r : UUID) :
    ((getEffectivePermissions p r).run repos.answer).2 =
      match repos.resource r with
      | none => .error (.text "resource not found")
      | some _ => .ok ((collectChain p (repos.chain r) ([], [])).run repos.answer).2 := by
  simp only [getEffectivePermissions, ResourceRepository.getByID, ResourceRepository.getAncestors,
    lift, run_bind, run_call, Repos.answer]
  cases h : repos.resource r <;> simp [h, run_bind, Repos.chain, Repos.answer]

end Effective

theorem Binding.grants_evaluateCondition (b : Binding) (p x : GoString) (ctx : Context) :
    b.grants evaluateCondition p x ctx = true ↔
      b.hasMember p = true ∧
        ∃ role, b.role = some role ∧ ∃ perm ∈ role.permissions, perm.name = x := by
  cases hc : b.condition <;> cases hr : b.role <;>
    simp [Binding.grants, evaluateCondition, Role.hasPermission_iff, hc, hr]

theorem getEffectivePermissions_spec (repos : Repos) (p : GoString) (r : UUID) (ctx : Context)
    (perms roles : List GoString)
    (h : ((getEffectivePermissions p r).run repos.answer).2 = .ok (perms, roles)) :
    (∀ x, x ∈ perms ↔ ((checkPermission p r x ctx).run repos.answer).2.allowed = true) ∧
    (∀ name, name ∈ roles ↔
      ∃ role, repos.MemberRole p (repos.chain r) role ∧ role.name = name) := by
  rw [run_getEffectivePermissions] at h
  cases hr : repos.resource r with
  | none => simp [hr] at h
  | some res =>
      simp only [hr, Except.ok.injEq] at h
      have hperms : perms = ((collectChain p (repos.chain r) ([], [])).run repos.answer).2.1 := by
        rw [h]
      have hroles : roles = ((collectChain p (repos.chain r) ([], [])).run repos.answer).2.2 := by
        rw [h]
      refine ⟨fun x => ?_, fun name => ?_⟩
      · show _ ↔
          ((checkPermissionWith evaluateCondition p r x ctx).run repos.answer).2.allowed = true
        rw [(checkPermissionWith_spec evaluateCondition repos p x ctx r).2.1, hr, hperms,
          (mem_run_collectChain repos p _ _ x).1]
        simp only [List.not_mem_nil, false_or, Option.isSome_some, true_and, Repos.GrantsAt,
          Binding.grants_evaluateCondition, Repos.MemberRole, MemberRoleIn]
        constructor
        · rintro ⟨role, ⟨a, ha, P, hP, b, hb, hm, hr⟩, hx⟩
          exact ⟨a, ha, P, hP, b, hb, hm, role, hr, hx⟩
        · rintro ⟨a, ha, P, hP, b, hb, hm, role, hr, hx⟩
          exact ⟨role, ⟨a, ha, P, hP, b, hb, hm, hr⟩, hx⟩
      · rw [hroles, (mem_run_collectChain repos p _ _ name).2]
        simp

def readerRepos : Repos where
  resource id := if id = 1 then some ⟨1, lit "doc", lit "d", none, []⟩ else none
  ancestors _ := []
  policy id := if id = 1 then
    some ⟨5, 1,
      [⟨7, 5, 6, some ⟨6, lit "reader", [], [], [⟨3, lit "read", [], []⟩], true⟩,
        Json.marshalStrings [lit "alice"], none, none⟩], lit "e", 1⟩ else none

theorem getEffectivePermissions_spec_reader :
    (∀ x, x ∈ [lit "read"] ↔
      ((checkPermission (lit "alice") 1 x []).run readerRepos.answer).2.allowed = true) ∧
    (∀ name, name ∈ [lit "reader"] ↔
      ∃ role, readerRepos.MemberRole (lit "alice") (readerRepos.chain 1) role ∧
        role.name = name) :=
  getEffectivePermissions_spec readerRepos (lit "alice") 1 [] [lit "read"] [lit "reader"] rfl

end Iam
