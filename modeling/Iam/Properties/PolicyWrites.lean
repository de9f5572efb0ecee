import Iam.Runtime.Reach
import Iam.Repository.Writes

/-!
# Writes to a policy and its bindings

`UpdatePolicy` and `DeletePolicy` compare the caller's etag with the one they
read and then write with no condition on it, so two calls that read the same
etag can both pass the comparison.  `CreateBinding` and `DeleteBinding` change
a policy's bindings without saving the policy, so its etag and version stay
as they were.  No operation runs in a transaction: one that fails part way
leaves the rows its earlier calls wrote.  When no binding sent carries a
`Role` or a `Policy`, whose rows GORM saves with it, what those rows can be
is `Store.PartialWrite`: policies of the resource at version 1, some of the
bindings `UpdatePolicy` read deleted, and new bindings of a policy of the
resource; and only a failed read-back after `UpdatePolicy`'s save leaves a
policy row changed.  The unique index on `resource_id` also holds the
soft-deleted rows, so a resource whose policy was deleted can never be given
a policy again.
-/

namespace Iam

open Prog

def member (p : String) : Binding :=
  ⟨UUID.nil, UUID.nil, 4, none, Json.marshalStrings [lit p], none, none⟩

def policySetup (bs : List Binding) : List Request :=
  [.createResource (lit "doc") (lit "d") none [],
   .createRole (lit "viewer") [] [] [],
   .createPolicy 1 bs]

/-! ## Failures part way -/

namespace Table
variable {α : Type} (key : α → UUID)
def softDeleteAll (rows : List (Row α)) (ids : List UUID) : List (Row α) :=
  ids.foldl (softDelete key) rows

variable {key}

@[simp] theorem holds_softDeleteAll (rows : List (Row α)) (ids : List UUID) (x : UUID) :
    holds key (softDeleteAll key rows ids) x = holds key rows x := by
  induction ids generalizing rows with
  | nil => rfl
  | cons id ids ih => exact (ih _).trans (holds_softDelete id x)

theorem mem_softDeleteAll_live {rows : List (Row α)} {ids : List UUID} {row : Row α}
    (h : row ∈ softDeleteAll key rows ids) (hl : row.deleted = false) :
    row ∈ rows ∧ key row.val ∉ ids := by
  induction ids generalizing rows with
  | nil => exact ⟨h, List.not_mem_nil _⟩
  | cons id ids ih =>
    obtain ⟨h', hn⟩ := ih h
    obtain ⟨r, hr, rfl⟩ := List.mem_map.1 h'
    by_cases hk : key r.val = id
    · simp [hk] at hl
    · simp only [beq_iff_eq, hk, if_false] at hn ⊢
      exact ⟨hr, by simp [hk, hn]⟩

end Table

namespace Store

def bindingIDsOf (s : Store) (r : UUID) : List UUID :=
  ((s.policyGetByResourceID r).map fun p => p.bindings.map (·.id)).getD []

def AddsBindings (pid : UUID) (s s' : Store) : Prop :=
  ∃ (new : List (Row BindingRecord)) (conditions : List (Row Condition)),
    (∀ b ∈ new, b.deleted = false ∧ b.val.policyID = pid) ∧
    s' = { s with bindings := s.bindings ++ new, conditions }

theorem AddsBindings.refl (pid : UUID) (s : Store) : s.AddsBindings pid s :=
  ⟨[], s.conditions, by simp, by simp⟩

theorem AddsBindings.trans {pid : UUID} {s₁ s₂ s₃ : Store} (h₁ : s₁.AddsBindings pid s₂)
    (h₂ : s₂.AddsBindings pid s₃) : s₁.AddsBindings pid s₃ := by
  obtain ⟨n₁, c₁, hn₁, rfl⟩ := h₁
  obtain ⟨n₂, c₂, hn₂, rfl⟩ := h₂
  refine ⟨n₁ ++ n₂, c₂, fun b hb => ?_, by simp⟩
  rcases List.mem_append.1 hb with hb | hb
  · exact hn₁ b hb
  · exact hn₂ b hb

/--
What a policy write on resource `r` may leave behind: every other table as
it was; new policy rows, each live, of `r`, at version 1; the bindings with
the rows of some of the ids of `dropped` soft-deleted, and new live bindings,
each of a policy of `r`.  `UpdatePolicy` deletes its bindings in the order the
preload returned them, which has no `ORDER BY`, so which ids those are is
stated up to that order.
-/
structure PartialWrite (r : UUID) (dropped : List UUID) (s s' : Store) : Prop where
  resources : s'.resources = s.resources
  permissions : s'.permissions = s.permissions
  roles : s'.roles = s.roles
  rolePermissions : s'.rolePermissions = s.rolePermissions
  policies : ∃ new, s'.policies = s.policies ++ new ∧
    ∀ p ∈ new, p.deleted = false ∧ p.val.resourceID = r ∧ p.val.version = 1
  bindings : ∃ ds new, ds.Subperm dropped ∧
    s'.bindings = Table.softDeleteAll BindingRecord.id s.bindings ds ++ new ∧
    ∀ b ∈ new, b.deleted = false ∧
      ∃ p ∈ s'.policies, p.val.id = b.val.policyID ∧ p.val.resourceID = r

theorem PartialWrite.refl (r : UUID) (dropped : List UUID) (s : Store) :
    s.PartialWrite r dropped s :=
  ⟨rfl, rfl, rfl, rfl, ⟨[], by simp⟩,
    ⟨[], [], List.nil_subperm, by simp [Table.softDeleteAll], by simp⟩⟩

theorem PartialWrite.of_addsBindings {r pid : UUID} {dropped ds : List UUID} {s s₁ s' : Store}
    (newp : List (Row PolicyRecord))
    (hnewp : ∀ p ∈ newp, p.deleted = false ∧ p.val.resourceID = r ∧ p.val.version = 1)
    (hds : ds <+: dropped)
    (hpid : ∃ p ∈ s.policies ++ newp, p.val.id = pid ∧ p.val.resourceID = r)
    (hs₁ : s₁ = { s with policies := s.policies ++ newp
                         bindings := Table.softDeleteAll BindingRecord.id s.bindings ds })
    (h : AddsBindings pid s₁ s') : s.PartialWrite r dropped s' := by
  obtain ⟨new, conditions, hnew, rfl⟩ := h
  subst hs₁
  refine ⟨rfl, rfl, rfl, rfl, ⟨newp, rfl, hnewp⟩,
    ⟨ds, new, hds.sublist.subperm, rfl, fun b hb => ?_⟩⟩
  obtain ⟨hl, hp⟩ := hnew b hb
  exact ⟨hl, hp ▸ hpid⟩

theorem policyGetByResourceID_eq_some {s : Store} {r : UUID} {p : Policy}
    (h : s.policyGetByResourceID r = some p) :
    ∃ row ∈ s.policies, row.val.id = p.id ∧ row.val.resourceID = r := by
  obtain ⟨row, hf, rfl⟩ := Option.map_eq_some'.1 h
  exact ⟨row, List.mem_of_find?_eq_some hf, rfl,
    (by simpa using List.find?_some hf : _ ∧ _).2⟩

theorem policyGetByResourceID_etag_of_prefix {s s' : Store} (h : s.policies <+: s'.policies)
    {r : UUID} {e : GoString} (he : (s.policyGetByResourceID r).map Policy.etag = some e) :
    (s'.policyGetByResourceID r).map Policy.etag = some e := by
  obtain ⟨t, ht⟩ := h
  obtain ⟨row, hf, rfl⟩ := Option.map_eq_some'.1 (Option.map_map _ _ _ ▸ he)
  simp only [policyGetByResourceID, ← ht, List.find?_append, hf, Option.or_some, Option.map_map]
  rfl

end Store

def Call.AddsBindingOf (pid : UUID) (c : Call) : Prop :=
  c.writesStore = false ∨ ∃ b, c = .bindingCreate b ∧ b.policyID = pid ∧ b.plain = true

theorem World.perform_addsBindings (env : Env) (w : World) {pid : UUID} {c : Call}
    (hc : c.AddsBindingOf pid) : w.store.AddsBindings pid (w.perform env c).2.store := by
  rcases hc with hc | ⟨b, rfl, hb, hplain⟩
  · rw [World.perform_store env w c hc]; exact .refl _ _
  · refine World.write_inv env w (.refl _ _) fun s' h => ?_
    rw [Store.bindingCreate_of_plain hplain] at h
    obtain ⟨-, -, -, -, h⟩ := Store.bindingInsert_eq_ok.1 h
    exact ⟨_, _, by simpa [Store.BindingRecord.ofBinding] using hb, Store.withBinding_eq_ok h⟩

theorem Prog.Only.exec_addsBindings (env : Env) {α : Type} {pid : UUID} {x : Prog α}
    (hx : Only (Call.AddsBindingOf pid) x) (w : World) :
    w.store.AddsBindings pid (x.exec env w).2.store :=
  @Only.exec_inv α _ env (w.store.AddsBindings pid)
    (fun _ w' hc h => h.trans (World.perform_addsBindings env w' hc)) x hx w (.refl _ _)

theorem only_createBindings_adds (pid : UUID) (bs : List Binding)
    (hbs : ∀ b ∈ bs, b.plain = true) : Only (Call.AddsBindingOf pid) (createBindings pid bs) :=
  only_createBindings (.inl rfl) pid bs fun b hb _ hp hc _ => .inr ⟨_, rfl, hp, hc.plain (hbs b hb)⟩

theorem only_createBindingIn_adds (p : Policy) (roleID : UUID) (members : List GoString) :
    Only (Call.AddsBindingOf p.id) (createBindingIn p roleID members) :=
  only_createBindingIn (.inl rfl) p (fun b hb hp _ => .inr ⟨b, rfl, hb, hp⟩) (.inl rfl)
    (fun _ => .inl rfl) roleID members

theorem exec_deleteBindings (env : Env) : ∀ (bs : List Binding) (w : World),
    ∃ ds, ds <+: bs.map (·.id) ∧ ((deleteBindings bs).exec env w).2.store =
      { w.store with bindings := Table.softDeleteAll BindingRecord.id w.store.bindings ds }
  | [], w => ⟨[], by simp, rfl⟩
  | b :: rest, w => by
    simp only [deleteBindings, BindingRepository.delete, lift, call_bind, pure_bind,
      Prog.exec_call, World.perform]
    rcases World.write_cases env w (.ok (w.store.bindingDelete b.id)) with
      ⟨h1, h2⟩ | ⟨⟨e, h1⟩, h2⟩
    · rw [h1]
      obtain ⟨ds, hds, hs⟩ := exec_deleteBindings env rest (w.write env _).2
      refine ⟨b.id :: ds, by simpa using hds, ?_⟩
      rw [hs, ← Except.ok.inj h2]
      rfl
    · rw [h1]
      exact ⟨[], by simp, h2⟩

theorem policyRepository_create_exec (env : Env) (w : World) (r : UUID) :
    (PolicyRepository.create (newPolicy r)).exec env w =
      let p : Policy := ⟨env.uuid w.tick, r, [], UUID.string (env.uuid (w.tick + 1)), 1⟩
      ((p, (w.next.next.write env (w.store.policyCreate p)).1),
        (w.next.next.write env (w.store.policyCreate p)).2) := by
  simp [PolicyRepository.create, Policy.beforeCreate, newPolicy, freshID, newUUID, lift,
    World.perform]

theorem policyRepository_update_exec (env : Env) (w : World) (p : Policy) :
    (PolicyRepository.update p).exec env w =
      let p' := { p with etag := UUID.string (env.uuid w.tick), version := p.version + 1 }
      ((p', (w.next.write env (w.store.policyUpdate p')).1),
        (w.next.write env (w.store.policyUpdate p')).2) := by
  simp [PolicyRepository.update, Policy.beforeUpdate, newUUID, lift, World.perform]

theorem createPolicy_partialWrite (env : Env) (w : World) (r : UUID) (bs : List Binding)
    (hbs : ∀ b ∈ bs, b.plain = true) :
    w.store.PartialWrite r [] ((createPolicy r bs).exec env w).2.store := by
  unfold createPolicy
  rw [Prog.exec_bind, policyRepository_create_exec]
  dsimp only
  set p : Policy := ⟨env.uuid w.tick, r, [], UUID.string (env.uuid (w.tick + 1)), 1⟩ with hp
  rcases World.write_cases env w.next.next (w.store.policyCreate p) with
    ⟨h1, h2⟩ | ⟨⟨e, h1⟩, h2⟩
  · rw [h1]
    dsimp only
    obtain ⟨-, -, hs⟩ := Store.policyCreate_eq_ok.1 h2
    refine Store.PartialWrite.of_addsBindings [⟨Store.PolicyRecord.ofPolicy p, false⟩]
      (by simp [hp, Store.PolicyRecord.ofPolicy]) List.nil_prefix
      ⟨_, List.mem_append_right _ (List.mem_singleton_self _), rfl, rfl⟩ hs ?_
    refine Only.exec_addsBindings env ((only_createBindings_adds p.id bs hbs).bind fun x => ?_) _
    rcases x with _ | ⟨⟩ <;>
      simp [cacheClear, PolicyRepository.getByID, lift, Call.ForallReply, Call.AddsBindingOf,
        Call.writesStore]
  · rw [h1]
    simp only [Prog.pure_eq, Prog.exec_pure, h2]
    exact .refl _ _ _

theorem updatePolicy_partialWrite (env : Env) (w : World) (r : UUID) (bs : List Binding)
    (etag : GoString) (hbs : ∀ b ∈ bs, b.plain = true) :
    w.store.PartialWrite r (w.store.bindingIDsOf r)
      ((updatePolicy r bs etag).exec env w).2.store ∨
    ∃ s₁ p etag', w.store.PartialWrite r (w.store.bindingIDsOf r) s₁ ∧
      w.store.policyGetByResourceID r = some p ∧
      s₁.policyUpdate { p with etag := etag', version := p.version + 1 } =
        .ok ((updatePolicy r bs etag).exec env w).2.store ∧
      (((updatePolicy r bs etag).exec env w).1 = .error (.db .connection) ∨
        ∃ v, ((updatePolicy r bs etag).exec env w).1 = .ok v) := by
  unfold updatePolicy
  simp only [PolicyRepository.getByResourceID, lift, call_bind, pure_bind, Prog.exec_call,
    World.perform]
  generalize hread : World.read env w (w.store.policyGetByResourceID r) = rd
  rcases rd with e | _ | policy
  · exact .inl (.refl _ _ _)
  · exact .inl (.refl _ _ _)
  have hp := (World.read_eq_ok env w hread).symm
  have hids : w.store.bindingIDsOf r = policy.bindings.map (·.id) := by
    simp [Store.bindingIDsOf, hp]
  obtain ⟨row, hrow, hid, hres⟩ := Store.policyGetByResourceID_eq_some hp
  dsimp only
  split
  · exact .inl (.refl _ _ _)
  simp only [Prog.pure_eq, pure_bind, Prog.exec_bind]
  obtain ⟨ds, hds, hs₁⟩ := exec_deleteBindings env policy.bindings w.next
  generalize (deleteBindings policy.bindings).exec env w.next = y at hs₁ ⊢
  obtain ⟨res₁, w₁⟩ := y
  have hw : ∀ {s'}, w₁.store.AddsBindings policy.id s' →
      w.store.PartialWrite r (w.store.bindingIDsOf r) s' :=
    Store.PartialWrite.of_addsBindings [] (by simp) (hids ▸ hds)
      ⟨row, by simpa using hrow, hid, hres⟩ (by simpa using hs₁)
  rcases res₁ with e | ⟨⟩
  · exact .inl (hw (.refl _ _))
  dsimp only
  rw [Prog.exec_bind]
  have hadd := (only_createBindings_adds policy.id bs hbs).exec_addsBindings env w₁
  generalize (createBindings policy.id bs).exec env w₁ = z at hadd ⊢
  obtain ⟨res₂, w₂⟩ := z
  have hw₂ := hw hadd
  rcases res₂ with e | ⟨⟩
  · exact .inl hw₂
  dsimp only
  rw [Prog.exec_bind, policyRepository_update_exec]
  dsimp only
  rcases World.write_cases env w₂.next (w₂.store.policyUpdate
    { policy with etag := UUID.string (env.uuid w₂.tick), version := policy.version + 1 })
    with ⟨h1, h2⟩ | ⟨⟨e, h1⟩, h2⟩
  · rw [h1]
    refine .inr ⟨w₂.store, policy, _, hw₂, hp, h2, ?_⟩
    simp only [cacheClear, PolicyRepository.getByID, lift, call_bind, pure_bind, Prog.exec_call,
      Prog.exec_pure, World.perform, World.read, dbErr]
    split <;> simp [Except.mapError]
  · rw [h1]
    simp only [Prog.exec_pure, h2, World.next_store]
    exact .inl hw₂

theorem createBinding_partialWrite (env : Env) (w : World) (r roleID : UUID)
    (members : List GoString) (condition : Option Condition) :
    w.store.PartialWrite r [] ((createBinding r roleID members condition).exec env w).2.store := by
  unfold createBinding
  simp only [PolicyRepository.getByResourceID, lift, call_bind, pure_bind, Prog.exec_call,
    World.perform]
  generalize hread : World.read env w (w.store.policyGetByResourceID r) = rd
  rcases rd with e | _ | policy
  · exact .refl _ _ _
  · dsimp only
    rw [Prog.exec_bind, policyRepository_create_exec]
    dsimp only
    set p : Policy := ⟨env.uuid w.next.tick, r, [], UUID.string (env.uuid (w.next.tick + 1)), 1⟩
      with hp
    rcases World.write_cases env w.next.next.next (w.next.store.policyCreate p)
      with ⟨h1, h2⟩ | ⟨⟨e, h1⟩, h2⟩
    · rw [h1]
      obtain ⟨-, -, hs⟩ := Store.policyCreate_eq_ok.1 h2
      exact Store.PartialWrite.of_addsBindings [⟨Store.PolicyRecord.ofPolicy p, false⟩]
        (by simp [hp, Store.PolicyRecord.ofPolicy]) List.nil_prefix
        ⟨_, List.mem_append_right _ (List.mem_singleton_self _), rfl, rfl⟩ hs
        ((only_createBindingIn_adds p roleID members).exec_addsBindings env _)
    · rw [h1]
      simp only [World.next_store] at h2 ⊢
      simp only [Prog.pure_eq, Prog.exec_pure, h2]
      exact .refl _ _ _
  · obtain ⟨row, hrow, hid, hres⟩ :=
      Store.policyGetByResourceID_eq_some (World.read_eq_ok env w hread).symm
    exact Store.PartialWrite.of_addsBindings [] (by simp) List.nil_prefix
      ⟨row, by simpa using hrow, hid, hres⟩ (by simp [Table.softDeleteAll])
      ((only_createBindingIn_adds policy roleID members).exec_addsBindings env _)

def Request.policyResource : Request → Option UUID
  | .createPolicy r _ | .updatePolicy r _ _ | .createBinding r _ _ _ => some r
  | _ => none

def Request.droppedBindings (s : Store) : Request → List UUID
  | .updatePolicy r _ _ => s.bindingIDsOf r
  | _ => []

/--
A `CreatePolicy`, `UpdatePolicy` or `CreateBinding` on resource `r` that
returns an error leaves a part of its writes: `Store.PartialWrite`.  The one
exception is `UpdatePolicy` whose read-back after the save failed: the policy
row then has the next version.
-/
theorem failed_policy_write_effects (env : Env) (w : World) (req : Request) (r : UUID)
    (hr : req.policyResource = some r) (hbs : ∀ b ∈ req.sentBindings, b.plain = true)
    (hf : (req.prog.exec env w).1.failed = true) :
    w.store.PartialWrite r (req.droppedBindings w.store) (req.prog.exec env w).2.store ∨
    ∃ bs etag s₁ p etag', req = .updatePolicy r bs etag ∧
      w.store.PartialWrite r (w.store.bindingIDsOf r) s₁ ∧
      w.store.policyGetByResourceID r = some p ∧
      s₁.policyUpdate { p with etag := etag', version := p.version + 1 } =
        .ok (req.prog.exec env w).2.store ∧
      (req.prog.exec env w).1 = .policy (.error (.db .connection)) := by
  cases req <;> simp only [Request.policyResource, reduceCtorEq, Option.some.injEq] at hr <;>
    subst hr <;> simp only [Request.prog, Prog.exec_map, Request.droppedBindings] at hf ⊢
  case createPolicy bs => exact .inl (createPolicy_partialWrite env w _ bs hbs)
  case createBinding roleID members condition =>
    exact .inl (createBinding_partialWrite env w _ roleID members condition)
  case updatePolicy bs etag =>
    rcases updatePolicy_partialWrite env w _ bs etag hbs with
      h | ⟨s₁, p, etag', h₁, hp, hs, he | ⟨v, hv⟩⟩
    · exact .inl h
    · exact .inr ⟨bs, etag, s₁, p, etag', rfl, h₁, hp, hs, by rw [he]⟩
    · simp [hv, Response.failed, Except.toBool] at hf

def docWorld : World :=
  (runRequests Env.reliable [.createResource (lit "doc") (lit "d") none []] (World.init .noop)).2

def unknownRolePolicy : Request := .createPolicy 1 [member "alice"]

theorem failed_policy_write_effects_docWorld :
    unknownRolePolicy.policyResource = some 1 ∧
    (∀ b ∈ unknownRolePolicy.sentBindings, b.plain = true) ∧
    (unknownRolePolicy.prog.exec Env.reliable docWorld).1.failed = true ∧
    (docWorld.store.PartialWrite 1 (unknownRolePolicy.droppedBindings docWorld.store)
        (unknownRolePolicy.prog.exec Env.reliable docWorld).2.store ∨
      ∃ bs etag s₁ p etag', unknownRolePolicy = .updatePolicy 1 bs etag ∧
        docWorld.store.PartialWrite 1 (docWorld.store.bindingIDsOf 1) s₁ ∧
        docWorld.store.policyGetByResourceID 1 = some p ∧
        s₁.policyUpdate { p with etag := etag', version := p.version + 1 } =
          .ok (unknownRolePolicy.prog.exec Env.reliable docWorld).2.store ∧
        (unknownRolePolicy.prog.exec Env.reliable docWorld).1 =
          .policy (.error (.db .connection))) :=
  ⟨rfl, by decide, by decide,
    failed_policy_write_effects Env.reliable docWorld unknownRolePolicy 1 rfl (by decide)
      (by decide)⟩

/--
The policy row is written, the binding is refused, and the call returns the
error: a live policy that was not there before.
-/
theorem createPolicy_error_leaves_policy :
    (unknownRolePolicy.prog.exec Env.reliable docWorld).1.failed = true ∧
    docWorld.store.policyGetByResourceID 1 = none ∧
    ((unknownRolePolicy.prog.exec Env.reliable docWorld).2.store.policyGetByResourceID 1).isSome =
      true := by
  decide

/-! ## Bindings written past the etag -/

theorem createBinding_keeps_policy_rows (env : Env) (w : World) (r roleID : UUID)
    (members : List GoString) (condition : Option Condition) :
    w.store.policies <+:
      ((createBinding r roleID members condition).exec env w).2.store.policies := by
  obtain ⟨new, h, -⟩ := (createBinding_partialWrite env w r roleID members condition).policies
  exact ⟨new, h.symm⟩

def etagWorld : World := (runRequests Env.reliable (policySetup []) (World.init .noop)).2

def boundWorld : World :=
  ((Request.createBinding 1 4 [lit "alice"] none).prog.exec Env.reliable etagWorld).2

/--
`CreateBinding` adds a binding to the policy of resource `1` and leaves its
etag; an `UpdatePolicy` that presents the etag read before then succeeds and
drops the binding.
-/
theorem createBinding_keeps_etag :
    (etagWorld.store.policyGetByResourceID 1).map Policy.etag = some (UUID.string 7) ∧
    (boundWorld.store.policyGetByResourceID 1).map Policy.etag = some (UUID.string 7) ∧
    (etagWorld.store.policyGetByResourceID 1).map (·.bindings.map (·.members)) = some [] ∧
    (boundWorld.store.policyGetByResourceID 1).map (·.bindings.map (·.members)) =
      some [Json.marshalStrings [lit "alice"]] ∧
    ((Request.updatePolicy 1 [] (UUID.string 7)).prog.exec Env.reliable boundWorld).1.failed =
      false ∧
    ((((Request.updatePolicy 1 [] (UUID.string 7)).prog.exec Env.reliable boundWorld).2.store
      ).policyGetByResourceID 1).map (·.bindings) = some [] := by
  have hetag : (etagWorld.store.policyGetByResourceID 1).map Policy.etag = some (UUID.string 7) :=
    by decide
  exact ⟨hetag, Store.policyGetByResourceID_etag_of_prefix
    (createBinding_keeps_policy_rows Env.reliable etagWorld 1 4 [lit "alice"] none) hetag,
    by decide, by decide, by decide, by decide⟩

/-! ## A policy deleted and created again -/

theorem createPolicy_fails_of_row (env : Env) (w : World) (r : UUID) (bs : List Binding)
    (h : w.store.policies.any (·.val.resourceID == r) = true) :
    ∃ e, ((createPolicy r bs).exec env w).1 = .error e := by
  unfold createPolicy
  rw [Prog.exec_bind, policyRepository_create_exec]
  dsimp only
  obtain ⟨e, he⟩ := World.write_error env w.next.next .uniqueViolation
  rw [show w.store.policyCreate _ = .error .uniqueViolation by simp [Store.policyCreate, h], he]
  exact ⟨_, rfl⟩

theorem createBinding_fails_of_row (env : Env) (w : World) (r roleID : UUID)
    (members : List GoString) (condition : Option Condition)
    (hlive : w.store.policyGetByResourceID r = none)
    (h : w.store.policies.any (·.val.resourceID == r) = true) :
    ∃ e, ((createBinding r roleID members condition).exec env w).1 = .error e := by
  unfold createBinding
  simp only [PolicyRepository.getByResourceID, lift, call_bind, pure_bind, Prog.exec_call,
    World.perform]
  generalize hread : World.read env w (w.store.policyGetByResourceID r) = rd
  rcases rd with e | _ | policy
  · exact ⟨_, rfl⟩
  · dsimp only
    rw [Prog.exec_bind, policyRepository_create_exec]
    dsimp only
    obtain ⟨e, he⟩ := World.write_error env w.next.next.next .uniqueViolation
    rw [show w.next.store.policyCreate _ = .error .uniqueViolation by
      simp [Store.policyCreate, h], he]
    exact ⟨_, rfl⟩
  · cases hlive ▸ World.read_eq_ok env w hread

def policyRemovedWorld : World :=
  (runRequests Env.reliable [.deletePolicy 1 (UUID.string 7)] etagWorld).2

/--
Resource `1` is live and has no live policy, role `4` exists, and yet
`CreatePolicy(1, [])` and `CreateBinding(1, 4, [alice], nil)` both fail.
-/
theorem recreate_policy_refused :
    (policyRemovedWorld.store.resourceGetByID 1).isSome = true ∧
    policyRemovedWorld.store.policyGetByResourceID 1 = none ∧
    (policyRemovedWorld.store.roleGetByID 4).isSome = true ∧
    ((createPolicy 1 []).exec Env.reliable policyRemovedWorld).1.toBool = false ∧
    ((createBinding 1 4 [lit "alice"] none).exec Env.reliable policyRemovedWorld).1.toBool =
      false := by
  obtain ⟨e, he⟩ := createPolicy_fails_of_row Env.reliable policyRemovedWorld 1 [] (by decide)
  obtain ⟨e', he'⟩ := createBinding_fails_of_row Env.reliable policyRemovedWorld 1 4 [lit "alice"]
    none (by decide) (by decide)
  exact ⟨by decide, by decide, by decide, by rw [he]; rfl, by rw [he']; rfl⟩

/-! ## Two updates with the same etag -/

def racingUpdates : Threads :=
  [(Request.updatePolicy 1 [member "bob"] (UUID.string 7)).prog,
   (Request.updatePolicy 1 [member "carol"] (UUID.string 7)).prog]

/--
Both calls read the policy before either saves it: both succeed, the policy
keeps the bindings of both, and its version grows by one.
-/
theorem racing_updates_both_succeed :
    ((runSchedule Env.reliable (runRequests Env.reliable (policySetup []) (World.init .noop)).2
      racingUpdates ([0, 1] ++ List.replicate 6 0 ++ List.replicate 6 1)).map fun (w, ts) =>
      (ts.map fun t => t.result?.map Response.failed,
       (w.store.policyGetByResourceID 1).map fun p => (p.version, p.bindings.map (·.members)))) =
    some ([some false, some false],
      some (2, [Json.marshalStrings [lit "bob"], Json.marshalStrings [lit "carol"]])) := by
  decide

end Iam
