import Iam.Runtime.World

/-!
# Reachable worlds

The worlds a process reaches from an empty store by running requests one at
a time.  A store invariant holds in all of them when it holds of the empty
store and every request keeps it; for most requests that follows from the
calls the request can make (`Prog.Only`), since each call is atomic.
-/

namespace Iam

namespace World

variable (env : Env) (w : World)

theorem write_cases (r : Except DbError Store) :
    ((w.write env r).1 = .ok () ∧ r = .ok (w.write env r).2.store) ∨
      ((∃ e, (w.write env r).1 = .error e) ∧ (w.write env r).2.store = w.store) := by
  unfold write
  split
  · exact .inr ⟨⟨_, rfl⟩, rfl⟩
  · split
    · exact .inl ⟨rfl, rfl⟩
    · exact .inr ⟨⟨_, rfl⟩, rfl⟩

theorem write_store (r : Except DbError Store) :
    (w.write env r).2.store = w.store ∨ r = .ok (w.write env r).2.store :=
  (write_cases env w r).elim (fun h => .inr h.2) (fun h => .inl h.2)

theorem write_inv {Inv : Store → Prop} {r : Except DbError Store} (hw : Inv w.store)
    (h : ∀ s', r = .ok s' → Inv s') : Inv (w.write env r).2.store := by
  rcases write_store env w r with h' | h'
  · rwa [h']
  · exact h _ h'

theorem write_frame {β : Type} (f : Store → β) {r : Except DbError Store}
    (h : ∀ s', r = .ok s' → f s' = f w.store) : f (w.write env r).2.store = f w.store :=
  write_inv env w (show (fun s => f s = f w.store) w.store from rfl) h

end World

namespace Prog

variable {α β : Type} {P : Call → Prop}

def Only (P : Call → Prop) : Prog α → Prop
  | .pure _ => True
  | .call c k => P c ∧ ∀ r, Only P (k r)

@[simp] theorem only_pure (a : α) : Only P (pure a) ↔ True := Iff.rfl

@[simp] theorem only_call (c : Call) (k : c.Reply → Prog α) :
    Only P (call c k) ↔ P c ∧ c.ForallReply fun r => Only P (k r) := by
  rw [Call.forallReply_iff]; rfl

@[simp] theorem only_ite {c : Prop} [Decidable c] {x y : Prog α} :
    Only P (if c then x else y) ↔ (c → Only P x) ∧ (¬c → Only P y) := by
  split <;> simp_all

@[simp] theorem only_map_iff (f : α → β) {x : Prog α} : Only P (f <$> x) ↔ Only P x := by
  induction x with
  | pure a => exact Iff.rfl
  | call c k ih => exact and_congr Iff.rfl (forall_congr' ih)

theorem Only.bind {x : Prog α} {f : α → Prog β} (hx : Only P x) (hf : ∀ a, Only P (f a)) :
    Only P (x >>= f) := by
  induction x with
  | pure a => exact hf a
  | call c k ih => exact ⟨hx.1, fun r => ih r (hx.2 r)⟩

theorem Only.map {x : Prog α} (f : α → β) (hx : Only P x) : Only P (f <$> x) :=
  hx.bind fun _ => trivial

theorem Only.forEach {f : α → Prog β} (hf : ∀ a, Only P (f a)) : ∀ l, Only P (forEach f l)
  | [] => trivial
  | a :: as => (hf a).bind fun _ => (Only.forEach hf as).bind fun _ => trivial

theorem Only.forOption {f : α → Prog β} (hf : ∀ a, Only P (f a)) : ∀ o, Only P (forOption f o)
  | none => trivial
  | some a => (hf a).bind fun _ => trivial

theorem Only.forOption_bind {γ : Type} {f : α → Prog β} {k : Option β → Prog γ}
    (hf : ∀ a, Only P (f a)) (o : Option α) (hk : ∀ ob, (o = none → ob = none) → Only P (k ob)) :
    Only P (Prog.forOption f o >>= k) := by
  cases o with
  | none => exact hk none fun _ => rfl
  | some a =>
    rw [Prog.forOption, bind_assoc]
    exact (hf a).bind fun b => hk (some b) fun h => by cases h

theorem exec_inv (env : Env) {Inv : Store → Prop}
    (hP : ∀ c (w : World), Inv w.store → Inv (w.perform env c).2.store) (x : Prog α) {w : World}
    (hw : Inv w.store) : Inv (x.exec env w).2.store := by
  induction x generalizing w with
  | pure a => exact hw
  | call c k ih => exact ih _ (hP c w hw)

theorem Only.exec_inv (env : Env) {Inv : Store → Prop}
    (hP : ∀ c (w : World), P c → Inv w.store → Inv (w.perform env c).2.store)
    {x : Prog α} (hx : Only P x) {w : World} (hw : Inv w.store) : Inv (x.exec env w).2.store := by
  induction x generalizing w with
  | pure a => exact hw
  | call c k ih => exact ih _ (hx.2 _) (hP c w hx.1 hw)

theorem Only.exec_eq_run (env : Env) {Inv : World → Prop} (ans : (c : Call) → c.Reply)
    (hP : ∀ c (w : World), P c → Inv w → (w.perform env c).1 = ans c ∧ Inv (w.perform env c).2)
    {x : Prog α} (hx : Only P x) {w : World} (hw : Inv w) : (x.exec env w).1 = (x.run ans).2 := by
  induction x generalizing w with
  | pure a => rfl
  | call c k ih =>
    obtain ⟨h1, h2⟩ := hP c w hx.1 hw
    rw [exec_call, run_call, h1]
    exact ih _ (hx.2 _) h2

end Prog

open Prog

/-! ## The calls of the service's loops -/

section Loops

variable {P : Call → Prop}

theorem only_freshID (hu : P .newUUID) (id : UUID) : Only P (freshID id) := by
  simp [freshID, newUUID, lift, Call.ForallReply, hu]

theorem only_resource_beforeCreate (hu : P .newUUID) (r : Resource) : Only P r.beforeCreate :=
  (only_freshID hu _).bind fun _ => trivial

theorem only_resourceAssoc_beforeCreate (hu : P .newUUID) (ra : ResourceAssoc) :
    Only P ra.beforeCreate := by
  unfold ResourceAssoc.beforeCreate
  exact (only_resource_beforeCreate hu _).bind fun _ =>
    (Only.forOption (only_resource_beforeCreate hu) _).bind fun _ =>
      (Only.forEach (only_resource_beforeCreate hu) _).bind fun _ => by trivial

theorem only_policyAssoc_beforeCreate (hu : P .newUUID) (p : PolicyAssoc) :
    Only P p.beforeCreate := by
  unfold PolicyAssoc.beforeCreate
  refine Only.bind ?_ fun _ =>
    (Only.forOption (only_resourceAssoc_beforeCreate hu) _).bind fun _ =>
    (Only.forEach (fun _ => (only_freshID hu _).bind fun _ => by trivial) _).bind fun _ =>
      by trivial
  simp [Policy.beforeCreate, freshID, newUUID, lift, Call.ForallReply, hu]

theorem only_role_beforeCreateAssoc (hu : P .newUUID) (r : Role) : Only P r.beforeCreateAssoc := by
  unfold Role.beforeCreateAssoc
  exact ((only_freshID hu _).bind fun _ => by trivial).bind fun _ =>
    (Only.forEach (fun _ => (only_freshID hu _).bind fun _ => by trivial) _).bind fun _ =>
      by trivial

theorem only_bindingRepository_create (hu : P .newUUID) (b : Binding)
    (hb : ∀ b' : Binding, b'.policyID = b.policyID → b'.CarriesAtMost b →
      b'.condition.all (·.bindingID == b'.id) = true → P (.bindingCreate b')) :
    Only P (BindingRepository.create b) := by
  simp only [BindingRepository.create, Binding.beforeCreate, Prog.bind_assoc, Prog.pure_bind]
  refine (only_freshID hu _).bind fun id =>
    Only.forOption_bind (only_policyAssoc_beforeCreate hu) _ fun policy hp =>
      Only.forOption_bind (only_role_beforeCreateAssoc hu) _ fun role hr => ?_
  -- the binding saved under its hooks' results, with whatever condition names it
  have hsave : ∀ c : Option Condition, c.all (·.bindingID == id) = true →
      P (.bindingCreate ⟨id, b.policyID, b.roleID, role, b.members, c, policy⟩) :=
    fun c hc => hb _ rfl ⟨hp, hr⟩ hc
  cases hc : b.condition <;>
    simp [Condition.beforeCreate, freshID, newUUID, lift, Call.ForallReply, hu, hc, hsave]

theorem only_createBindings (hu : P .newUUID) (policyID : UUID) :
    ∀ bs : List Binding, (∀ b ∈ bs, ∀ b' : Binding, b'.policyID = policyID → b'.CarriesAtMost b →
      b'.condition.all (·.bindingID == b'.id) = true → P (.bindingCreate b')) →
    Only P (createBindings policyID bs)
  | [], _ => trivial
  | b :: rest, hb => (only_bindingRepository_create hu _ (hb b (List.mem_cons_self _ _))).bind fun
    | (_, .error _) => trivial
    | (_, .ok ()) =>
      only_createBindings hu policyID rest fun b' h => hb b' (List.mem_cons_of_mem _ h)

theorem only_deleteBindings (hd : ∀ id, P (.bindingDelete id)) :
    ∀ bs, Only P (deleteBindings bs)
  | [] => trivial
  | _ :: rest => by
    simp [deleteBindings, BindingRepository.delete, lift, Call.ForallReply, hd,
      only_deleteBindings hd rest]

theorem only_checkChain (hp : ∀ a, P (.policyGetByResourceID a)) (hs : ∀ k, P (.cacheSet k true))
    (evaluate : Condition → Context → Bool) (p x : GoString) (ctx : Context) (key : GoString) :
    ∀ chain, Only P (checkChain evaluate p x ctx key chain)
  | [] => trivial
  | _ :: rest => by
    have ih := only_checkChain hp hs evaluate p x ctx key rest
    simp [checkChain, checkResourcePermissionWith, PolicyRepository.getByResourceID, lift,
      Call.ForallReply, hp, ih]
    intro policy
    split <;> simp [cacheSet, lift, Call.ForallReply, hs, ih]

theorem only_collectChain (hp : ∀ a, P (.policyGetByResourceID a)) (p : GoString) :
    ∀ chain acc, Only P (collectChain p chain acc)
  | [], _ => trivial
  | _ :: rest, _ => by
    simp [collectChain, PolicyRepository.getByResourceID, lift, Call.ForallReply, hp,
      only_collectChain hp p rest]

theorem only_checkPermissionWith (hg : ∀ k, P (.cacheGet k)) (hs : ∀ k, P (.cacheSet k true))
    (hr : ∀ id, P (.resourceGetByID id)) (hp : ∀ a, P (.policyGetByResourceID a))
    (evaluate : Condition → Context → Bool) (p : GoString) (r : UUID)
    (ha : P (.resourceGetAncestors r)) (x : GoString) (ctx : Context) :
    Only P (checkPermissionWith evaluate p r x ctx) := by
  simp [checkPermissionWith, cacheGet, ResourceRepository.getByID, ResourceRepository.getAncestors,
    lift, Call.ForallReply, hg, hr, ha, only_checkChain hp hs]

theorem only_getEffectivePermissions (hr : ∀ id, P (.resourceGetByID id))
    (ha : ∀ id, P (.resourceGetAncestors id)) (hp : ∀ a, P (.policyGetByResourceID a))
    (p : GoString) (r : UUID) : Only P (getEffectivePermissions p r) := by
  simp only [getEffectivePermissions, ResourceRepository.getByID, ResourceRepository.getAncestors,
    lift, call_bind, pure_bind, only_call, Call.ForallReply, hr, ha, true_and]
  exact ⟨fun _ => trivial, trivial, fun _ => ⟨fun _ => trivial,
    fun _ => (only_collectChain hp p _ _).bind fun _ => trivial⟩⟩

theorem only_createPolicy (hu : P .newUUID) (hpc : ∀ p, P (.policyCreate p))
    (hc : P .cacheClear) (hg : ∀ id, P (.policyGetByID id)) (r : UUID) (bs : List Binding)
    (hb : ∀ b ∈ bs, ∀ b' : Binding, b'.CarriesAtMost b →
      b'.condition.all (·.bindingID == b'.id) = true → P (.bindingCreate b')) :
    Only P (createPolicy r bs) := by
  simp [createPolicy, PolicyRepository.create, Policy.beforeCreate, newPolicy, freshID, newUUID,
    lift, Call.ForallReply, hu, hpc]
  refine fun u => (only_createBindings hu _ _ fun b hb' b' _ => hb b hb' b').bind fun r => ?_
  rcases r with _ | ⟨⟩ <;>
    simp [cacheClear, PolicyRepository.getByID, lift, Call.ForallReply, hc, hg]

theorem only_updatePolicy (hr : ∀ id, P (.policyGetByResourceID id)) (hu : P .newUUID)
    (hpu : ∀ p, P (.policyUpdate p)) (hd : ∀ id, P (.bindingDelete id)) (hc : P .cacheClear)
    (hg : ∀ id, P (.policyGetByID id)) (r : UUID) (bs : List Binding) (etag : GoString)
    (hb : ∀ b ∈ bs, ∀ b' : Binding, b'.CarriesAtMost b →
      b'.condition.all (·.bindingID == b'.id) = true → P (.bindingCreate b')) :
    Only P (updatePolicy r bs etag) := by
  simp [updatePolicy, PolicyRepository.getByResourceID, lift, Call.ForallReply, hr]
  refine fun policy _ => (only_deleteBindings hd _).bind fun r => ?_
  rcases r with _ | ⟨⟩
  · trivial
  refine (only_createBindings hu _ _ fun b hb' b' _ => hb b hb' b').bind fun r => ?_
  rcases r with _ | ⟨⟩ <;>
    simp [PolicyRepository.update, Policy.beforeUpdate, newUUID, cacheClear,
      PolicyRepository.getByID, lift, Call.ForallReply, hu, hpu, hc, hg]

theorem only_createBindingIn (hu : P .newUUID) (p : Policy)
    (hb : ∀ b : Binding, b.policyID = p.id → b.plain = true →
      b.condition.all (·.bindingID == b.id) = true → P (.bindingCreate b))
    (hc : P .cacheClear) (hg : ∀ id, P (.bindingGetByID id)) (roleID : UUID)
    (members : List GoString) : Only P (createBindingIn p roleID members) :=
  (only_bindingRepository_create hu _ fun b hp hc => hb b hp (hc.plain (by rfl))).bind fun
    | (_, .error _) => trivial
    | (_, .ok ()) => by simp [cacheClear, BindingRepository.getByID, lift, Call.ForallReply, hc, hg]

theorem only_createBinding (hr : ∀ id, P (.policyGetByResourceID id)) (hu : P .newUUID)
    (hpc : ∀ p, P (.policyCreate p))
    (hb : ∀ b : Binding, b.plain = true →
      b.condition.all (·.bindingID == b.id) = true → P (.bindingCreate b))
    (hc : P .cacheClear) (hg : ∀ id, P (.bindingGetByID id))
    (r roleID : UUID) (members : List GoString) (c : Option Condition) :
    Only P (createBinding r roleID members c) := by
  have hin : ∀ p, Only P (createBindingIn p roleID members) :=
    fun p => only_createBindingIn hu p (fun b _ => hb b) hc hg roleID members
  simp [createBinding, PolicyRepository.getByResourceID, PolicyRepository.create,
    Policy.beforeCreate, newPolicy, freshID, newUUID, lift, Call.ForallReply, hr, hu, hpc, hin]

end Loops

/-- Worlds reached from an empty store by requests run one at a time, each admitted by `ok`. -/
inductive Reachable (env : Env) (ok : World → Request → Prop) : World → Prop where
  | init (cache : Cache) (tick : Nat) : Reachable env ok ⟨Store.empty, cache, tick⟩
  | step {w : World} (req : Request) : Reachable env ok w → ok w req →
      Reachable env ok (req.prog.exec env w).2

theorem Reachable.store_inv {env : Env} {ok : World → Request → Prop} {Inv : Store → Prop}
    (h0 : Inv Store.empty)
    (hstep : ∀ w req, ok w req → Inv w.store → Inv (req.prog.exec env w).2.store)
    {w : World} (h : Reachable env ok w) : Inv w.store := by
  induction h with
  | init => exact h0
  | step req _ hok ih => exact hstep _ req hok ih

theorem Reachable.runRequests {env : Env} {ok : World → Request → Prop}
    (hok : ∀ w req, ok w req) :
    ∀ (reqs : List Request) {w : World}, Reachable env ok w →
      Reachable env ok (Iam.runRequests env reqs w).2
  | [], _, h => h
  | req :: rest, _, h => Reachable.runRequests hok rest (h.step req (hok _ req))

/-- The bindings a request hands to `bindingRepo.Create` as the caller sent them. -/
def Request.sentBindings : Request → List Binding
  | .createPolicy _ bs | .updatePolicy _ bs _ => bs
  | _ => []

/-- No binding of the request carries a `Policy` for GORM to save with it. -/
def Request.NoPolicyAssoc (req : Request) : Prop := ∀ b ∈ req.sentBindings, b.policy = none

/-- No binding of the request carries a `Role` for GORM to save with it. -/
def Request.NoRoleAssoc (req : Request) : Prop := ∀ b ∈ req.sentBindings, b.role = none

instance : DecidablePred Request.NoPolicyAssoc :=
  fun req => inferInstanceAs (Decidable (∀ b ∈ req.sentBindings, b.policy = none))

instance : DecidablePred Request.NoRoleAssoc :=
  fun req => inferInstanceAs (Decidable (∀ b ∈ req.sentBindings, b.role = none))

theorem Reachable.runRequests_of {env : Env} {A : Request → Prop} :
    ∀ (reqs : List Request) {w : World}, (∀ req ∈ reqs, A req) →
      Reachable env (fun _ => A) w → Reachable env (fun _ => A) (Iam.runRequests env reqs w).2
  | [], _, _, h => h
  | req :: rest, _, hA, h =>
    Reachable.runRequests_of rest (fun r hr => hA r (.tail _ hr)) (h.step req (hA req (.head _)))

/-- The id a `CreateResource` draws, first thing, is not the parent it names. -/
def FreshDraws (env : Env) (w : World) : Request → Prop
  | .createResource _ _ (some parent) _ => env.uuid w.tick ≠ parent
  | _ => True

/--
What the resource tree needs beyond the store's own keys: no drawn id is
named as its own parent, and no binding carries a `Policy`, whose `Resource`
and `Children` GORM saves and re-parents under the ids the caller gave.
-/
def FreshIDs (env : Env) (w : World) (req : Request) : Prop :=
  req.NoPolicyAssoc ∧ FreshDraws env w req

theorem FreshIDs.of_draws {env : Env} {w : World} {req : Request} (hs : req.sentBindings = [])
    (h : FreshDraws env w req) : FreshIDs env w req :=
  ⟨fun _ hb => by simp [hs] at hb, h⟩

end Iam
