import Iam.Properties.Coherence
import Iam.Runtime.Evaluate
import Iam.Runtime.Schedule
import Iam.Service.CacheSpec

/-!
# Checks between mutations

A run in which no check overlaps a mutation is a sequence of phases: in each
phase some requests start together, their calls interleave in any order, and
all of them return before the next phase starts.  A phase is made of checks
only or of policy mutations only.

A cached grant is coherent with a store when every check whose key it is
would be granted by the uncached evaluation on that store.  A check phase
writes no row, and every grant it caches it has computed from the store of
the phase, so coherence is kept and every check it serves, from the cache or
not, is granted by that store.  A policy mutation that succeeds has cleared
the cache, and a mutation caches nothing, so after a phase of mutations that
all succeed the cache holds no grant.

Keys must determine the check: permissions have no `:` (principals may).
-/

namespace Iam

open Prog

/-! ## Cached grants a store supports -/

def Store.GrantFor (s : Store) (key : GoString) : Prop :=
  ∀ p r x ctx, colon ∉ x → generateCacheKey p r.string x = key →
    (s.evaluate p r x ctx).allowed = true

def World.Coherent (w : World) : Prop := ∀ k ∈ w.cache.grants, w.store.GrantFor k

theorem Repos.GrantsAt.ctx {repos : Repos} {p x : GoString} {ctx : Context} {a : UUID}
    (h : repos.GrantsAt evaluateCondition p x ctx a) (ctx' : Context) :
    repos.GrantsAt evaluateCondition p x ctx' a := by
  obtain ⟨P, hP, b, hb, hg⟩ := h
  exact ⟨P, hP, b, hb,
    (b.grants_evaluateCondition p x ctx').2 ((b.grants_evaluateCondition p x ctx).1 hg)⟩

section Evaluate

variable {s : Store} {p x : GoString} {r : UUID}

theorem Store.evaluate_of_grantsAt {a : UUID} {ctx : Context} (hr : (s.resourceGetByID r).isSome)
    (hanc : (s.getAncestors r).isSome) (ha : a ∈ s.repos.chain r)
    (hg : s.repos.GrantsAt evaluateCondition p x ctx a) (ctx' : Context) :
    (s.evaluate p r x ctx').allowed = true :=
  (s.evaluate_allowed_iff p r x ctx' hanc).2 ⟨hr, a, ha, hg.ctx ctx'⟩

theorem Store.grantFor_key (hx : colon ∉ x) (h : ∀ ctx, (s.evaluate p r x ctx).allowed = true) :
    s.GrantFor (generateCacheKey p r.string x) := by
  intro p' r' x' ctx hx' hk
  obtain ⟨rfl, rfl, rfl⟩ := generateCacheKey_inj hx' hx hk
  exact h ctx

end Evaluate

/-! ## The calls of a check -/

def Store.Answers (s : Store) : (c : Call) → c.Reply → Prop
  | .cacheGet k, g => g = some true → s.GrantFor k
  | .resourceGetByID id, v => ∀ o, v = .ok o → o = s.resourceGetByID id
  | .resourceGetAncestors id, v => ∀ l, v = .ok l → s.getAncestors id = some l
  | .policyGetByResourceID id, v => ∀ o, v = .ok o → o = s.policyGetByResourceID id
  | _, _ => True

def Store.CheckCall (s : Store) : Call → Prop
  | .cacheSet k v => v = true ∧ s.GrantFor k
  | c => c.writesStore = false

theorem Store.CheckCall.writesStore {s : Store} {c : Call} (h : s.CheckCall c) :
    c.writesStore = false := by
  cases c <;> first | exact h | rfl

namespace World

variable (env : Env) (w : World)

theorem perform_answers (hw : w.Coherent) (c : Call) : w.store.Answers c (w.perform env c).1 := by
  cases c
  case cacheGet k => exact fun h => hw k (Cache.mem_grants_of_get h)
  case resourceGetByID id => exact perform_reads env w (.resourceGetByID id)
  case resourceGetAncestors id => exact perform_reads env w (.resourceGetAncestors id)
  case policyGetByResourceID id => exact perform_reads env w (.policyGetByResourceID id)
  all_goals trivial

theorem perform_checkCall (hw : w.Coherent) {c : Call} (hc : w.store.CheckCall c) :
    (w.perform env c).2.store = w.store ∧ (w.perform env c).2.Coherent := by
  have hs := perform_store env w c hc.writesStore
  refine ⟨hs, ?_⟩
  cases hwc : c.writesCache
  · unfold Coherent; rwa [hs, perform_cache env w c hwc]
  cases c <;> simp only [Call.writesCache, Bool.false_eq_true] at hwc
  case cacheSet k v =>
    intro k' hk'
    rcases Cache.mem_grants_set hk' with ⟨rfl, -⟩ | hold
    · exact hc.2
    · exact hw k' hold
  case cacheClear => intro k hk; simp [perform, next] at hk

end World

/-! ## Check threads -/

def Store.Backs (s : Store) : Request → Response → Prop
  | .checkPermission p r x ctx, .decision d =>
    d.allowed = true → (s.evaluate p r x ctx).allowed = true
  | _, _ => True

section Check

variable (s : Store) (p x : GoString) (ctx : Context)

theorem sat_checkResourcePermission (a : UUID) :
    Sat s.Answers s.CheckCall
      (fun d => d.allowed = true → s.repos.GrantsAt evaluateCondition p x ctx a)
      (checkResourcePermissionWith evaluateCondition p a x ctx) := by
  simp only [checkResourcePermissionWith, PolicyRepository.getByResourceID, lift, call_bind,
    Prog.pure_bind, sat_call]
  refine ⟨rfl, fun v hv => ?_⟩
  rcases v with e | _ | P
  · simp
  · simp
  · cases hm : matchBindings evaluateCondition p a x ctx P.bindings with
    | none => simp [hm]
    | some reason =>
      obtain ⟨bs₁, b, bs₂, -, hbs, -, hb, -⟩ :=
        matchBindings_eq_some evaluateCondition p x ctx a P.bindings reason hm
      simp only [hm, sat_pure]
      exact fun _ => ⟨P, (hv _ rfl).symm, b, by simp [hbs], hb⟩

theorem sat_checkChain (r : UUID) (hr : (s.resourceGetByID r).isSome)
    (hanc : (s.getAncestors r).isSome) (hx : colon ∉ x) :
    ∀ L : List UUID, (∀ a ∈ L, a ∈ s.repos.chain r) →
      Sat s.Answers s.CheckCall
        (fun d => d.allowed = true → (s.evaluate p r x ctx).allowed = true)
        (checkChain evaluateCondition p x ctx (generateCacheKey p r.string x) L)
  | [], _ => by simp [checkChain]
  | a :: rest, hL => by
    have hgrant : s.repos.GrantsAt evaluateCondition p x ctx a →
        ∀ ctx', (s.evaluate p r x ctx').allowed = true :=
      s.evaluate_of_grantsAt hr hanc (hL a (List.mem_cons_self _ _))
    refine (sat_checkResourcePermission s p x ctx a).bind fun d hd => ?_
    split
    · simp
    · split
      · next hd' =>
        simp only [cacheSet, lift, call_bind, Prog.pure_bind, sat_call, sat_pure]
        exact ⟨⟨rfl, s.grantFor_key hx (hgrant (hd hd'))⟩, fun _ _ _ => hgrant (hd hd') ctx⟩
      · exact sat_checkChain r hr hanc hx rest fun a ha => hL a (List.mem_cons_of_mem _ ha)

theorem sat_checkPermission (r : UUID) (hx : colon ∉ x) :
    Sat s.Answers s.CheckCall (fun d => d.allowed = true → (s.evaluate p r x ctx).allowed = true)
      (checkPermission p r x ctx) := by
  simp only [checkPermission, checkPermissionWith, cacheGet, ResourceRepository.getByID,
    ResourceRepository.getAncestors, lift, call_bind, Prog.pure_bind, sat_call]
  refine ⟨rfl, fun g hg => ?_⟩
  split
  · next hc => exact fun _ => hg hc p r x ctx hx rfl
  refine ⟨rfl, fun v hv => ?_⟩
  rcases v with e | _ | R
  · simp
  · simp
  refine ⟨rfl, fun l hl => ?_⟩
  rcases l with e | l
  · simp
  have hanc := hl l rfl
  have hr : (s.resourceGetByID r).isSome := by rw [← hv _ rfl]; rfl
  exact sat_checkChain s p x ctx r hr (by simp [hanc]) hx _ fun a ha => by
    simpa [Repos.chain, Store.repos, hanc] using ha

end Check

def Request.isCheck : Request → Bool
  | .checkPermission .. => true
  | _ => false

def Request.colonFree : Request → Bool
  | .checkPermission _ _ x _ => decide (colon ∉ x)
  | _ => true

theorem sat_check_prog {s : Store} {q : Request} (hq : q.isCheck = true) (hx : q.colonFree = true) :
    Sat s.Answers s.CheckCall (s.Backs q) q.prog := by
  cases q <;> simp only [Request.isCheck, Bool.false_eq_true] at hq
  exact (sat_map_iff _).2 (sat_checkPermission s _ _ _ _ (of_decide_eq_true hx))

theorem Store.backs_of_not_check (s : Store) {q : Request} (hq : q.isCheck = false)
    (resp : Response) : s.Backs q resp := by
  cases q <;> simp only [Request.isCheck, Bool.true_eq_false] at hq <;> trivial

/-! ## Mutation threads -/

def Call.NoCacheSet (c : Call) : Prop := ∀ k v, c ≠ .cacheSet k v

namespace Prog

variable {α β : Type} {ok : β → Bool}

def ClearsBefore (ok : α → Bool) : Prog α → Prop
  | .pure a => ok a = false
  | .call c k => c = .cacheClear ∨ ∀ r, ClearsBefore ok (k r)

@[simp] theorem clearsBefore_pure (b : β) : ClearsBefore ok (pure b) ↔ ok b = false := Iff.rfl

@[simp] theorem clearsBefore_call (c : Call) (k : c.Reply → Prog β) :
    ClearsBefore ok (call c k) ↔
      c = .cacheClear ∨ c.ForallReply fun r => ClearsBefore ok (k r) := by
  rw [Call.forallReply_iff]; rfl

theorem ClearsBefore.bind {x : Prog α} {f : α → Prog β} (hf : ∀ a, ClearsBefore ok (f a)) :
    ClearsBefore ok (x >>= f) := by
  induction x with
  | pure a => exact hf a
  | call c k ih => exact .inr ih

@[simp] theorem clearsBefore_map_iff (f : α → β) {x : Prog α} :
    ClearsBefore ok (f <$> x) ↔ ClearsBefore (ok ∘ f) x := by
  induction x with
  | pure a => exact Iff.rfl
  | call c k ih => exact or_congr Iff.rfl (forall_congr' ih)

end Prog

def Request.touchesPolicy : Request → Bool
  | .createPolicy .. | .updatePolicy .. | .deletePolicy .. | .createBinding .. => true
  | .deleteBinding .. => true
  | _ => false

theorem Request.isCheck_of_touchesPolicy {q : Request} (h : q.touchesPolicy = true) :
    q.isCheck = false := by
  cases q <;> simp only [Request.touchesPolicy, Bool.false_eq_true] at h <;> rfl

theorem only_noCacheSet {q : Request} (hq : q.touchesPolicy = true) :
    Only Call.NoCacheSet q.prog := by
  have h : ∀ c : Call, c.writesCache = false ∨ c = .cacheClear → c.NoCacheSet := by
    rintro c hc k v rfl; simp [Call.writesCache] at hc
  cases q <;> simp only [Request.touchesPolicy, Bool.false_eq_true] at hq <;>
    simp only [Request.prog, only_map_iff]
  case createPolicy r bs =>
    exact only_createPolicy (h _ (.inl rfl)) (fun _ => h _ (.inl rfl)) (h _ (.inr rfl))
      (fun _ => h _ (.inl rfl)) r bs fun _ _ _ _ _ => h _ (.inl rfl)
  case updatePolicy r bs e =>
    exact only_updatePolicy (fun _ => h _ (.inl rfl)) (h _ (.inl rfl)) (fun _ => h _ (.inl rfl))
      (fun _ => h _ (.inl rfl)) (h _ (.inr rfl)) (fun _ => h _ (.inl rfl)) r bs e
      fun _ _ _ _ _ => h _ (.inl rfl)
  case createBinding r roleID members c =>
    exact only_createBinding (fun _ => h _ (.inl rfl)) (h _ (.inl rfl)) (fun _ => h _ (.inl rfl))
      (fun _ _ _ => h _ (.inl rfl)) (h _ (.inr rfl)) (fun _ => h _ (.inl rfl)) r roleID members c
  all_goals
    simp [deletePolicy, deleteBinding, PolicyRepository.getByResourceID, PolicyRepository.delete,
      BindingRepository.delete, cacheClear, lift, Call.ForallReply, Call.NoCacheSet]

@[simp] theorem clearsBefore_error {ε α : Type} (e : ε) :
    ClearsBefore Except.toBool (Prog.pure (.error e : Except ε α)) := rfl

theorem clearsBefore_clear {α : Type} {ok : α → Bool} {x : Prog α} :
    ClearsBefore ok (cacheClear >>= fun _ => x) := .inl rfl

theorem createPolicy_clears (r : UUID) (bs : List Binding) :
    ClearsBefore Except.toBool (createPolicy r bs) := by
  refine ClearsBefore.bind fun ⟨policy, res⟩ => ?_
  rcases res with _ | ⟨⟩
  · exact clearsBefore_error _
  refine ClearsBefore.bind fun res => ?_
  rcases res with _ | ⟨⟩
  · exact clearsBefore_error _
  · exact clearsBefore_clear

theorem updatePolicy_clears (r : UUID) (bs : List Binding) (etag : GoString) :
    ClearsBefore Except.toBool (updatePolicy r bs etag) := by
  simp only [updatePolicy, PolicyRepository.getByResourceID, lift, call_bind, Prog.pure_eq,
    Prog.pure_bind, clearsBefore_call, Call.ForallReply]
  refine .inr ⟨fun _ => rfl, rfl, fun policy => ?_⟩
  split
  · exact clearsBefore_error _
  refine ClearsBefore.bind fun res => ?_
  rcases res with _ | ⟨⟩
  · exact clearsBefore_error _
  refine ClearsBefore.bind fun res => ?_
  rcases res with _ | ⟨⟩
  · exact clearsBefore_error _
  refine ClearsBefore.bind fun ⟨_, res⟩ => ?_
  rcases res with _ | ⟨⟩
  · exact clearsBefore_error _
  · exact clearsBefore_clear

theorem deletePolicy_clears (r : UUID) (etag : GoString) :
    ClearsBefore Except.toBool (deletePolicy r etag) := by
  simp only [deletePolicy, PolicyRepository.getByResourceID, lift, call_bind, Prog.pure_eq,
    Prog.pure_bind, clearsBefore_call, Call.ForallReply]
  refine .inr ⟨fun _ => rfl, rfl, fun policy => ?_⟩
  split
  · exact clearsBefore_error _
  · exact clearsBefore_clear

theorem createBindingIn_clears (policy : Policy) (roleID : UUID) (members : List GoString) :
    ClearsBefore Except.toBool (createBindingIn policy roleID members) := by
  refine ClearsBefore.bind fun ⟨_, res⟩ => ?_
  rcases res with _ | ⟨⟩
  · exact clearsBefore_error _
  · exact clearsBefore_clear

theorem createBinding_clears (r roleID : UUID) (members : List GoString) (c : Option Condition) :
    ClearsBefore Except.toBool (createBinding r roleID members c) := by
  simp only [createBinding, PolicyRepository.getByResourceID, lift, call_bind, Prog.pure_bind,
    clearsBefore_call, Call.ForallReply]
  refine .inr ⟨fun _ => rfl, ?_, fun policy => createBindingIn_clears policy roleID members⟩
  refine ClearsBefore.bind fun ⟨policy, res⟩ => ?_
  rcases res with _ | ⟨⟩
  · exact clearsBefore_error _
  · exact createBindingIn_clears policy roleID members

theorem clearsBefore_prog {q : Request} (hq : q.touchesPolicy = true) :
    ClearsBefore (fun resp => !resp.failed) q.prog := by
  have hok : ∀ {α : Type} (f : Except GoError α → Response),
      (∀ r, (f r).failed = !r.toBool) →
      (fun resp => !resp.failed) ∘ f = Except.toBool := fun f hf => funext fun r => by simp [hf]
  cases q <;> simp only [Request.touchesPolicy, Bool.false_eq_true] at hq <;>
    simp only [Request.prog, clearsBefore_map_iff]
  case createPolicy r bs => rw [hok Response.policy fun _ => rfl]; exact createPolicy_clears r bs
  case updatePolicy r bs e =>
    rw [hok Response.policy fun _ => rfl]; exact updatePolicy_clears r bs e
  case deletePolicy r e => rw [hok Response.done fun _ => rfl]; exact deletePolicy_clears r e
  case createBinding r role ms c =>
    rw [hok Response.binding fun _ => rfl]; exact createBinding_clears r role ms c
  case deleteBinding id => exact clearsBefore_clear

namespace World

variable (env : Env) (w : World)

theorem perform_grants_nil {c : Call} (hc : c.NoCacheSet) (h : w.cache.grants = []) :
    (w.perform env c).2.cache.grants = [] := by
  cases hwc : c.writesCache
  · rwa [perform_cache env w c hwc]
  cases c <;> simp only [Call.writesCache, Bool.false_eq_true] at hwc
  · exact absurd rfl (hc _ _)
  · simp [perform, next]

end World

/-! ## Phases -/

structure Phase where
  requests : List (Request × Response)
  schedule : List Nat

def Phase.Runs (env : Env) (ph : Phase) (w w' : World) : Prop :=
  ((runSchedule env w (ph.requests.map (·.1.prog)) ph.schedule).bind fun r =>
    (r.2.mapM Prog.result?).map (r.1, ·)) = some (w', ph.requests.map (·.2))

theorem Phase.Runs.eq_runSchedule {env : Env} {ph : Phase} {w w' : World} (h : ph.Runs env w w') :
    runSchedule env w (ph.requests.map (·.1.prog)) ph.schedule =
      some (w', (ph.requests.map (·.2)).map Prog.pure) := by
  obtain ⟨⟨w₁, ts⟩, hrun, hres⟩ := Option.bind_eq_some.1 h
  simp only [Option.map_eq_some', Prod.mk.injEq] at hres
  obtain ⟨rs, hrs, rfl, rfl⟩ := hres
  rw [hrun, eq_map_pure_of_mapM_result hrs]

def Phase.Separate (ph : Phase) : Bool :=
  ph.requests.all (·.1.isCheck) || ph.requests.all (·.1.touchesPolicy)

inductive RunsPhases (env : Env) : World → List (World × Phase) → World → Prop
  | nil (w : World) : RunsPhases env w [] w
  | cons {w w₁ w' : World} {ph : Phase} {rest : List (World × Phase)} :
      ph.Runs env w w₁ → RunsPhases env w₁ rest w' → RunsPhases env w ((w, ph) :: rest) w'

section Phase

variable {env : Env} {w w' : World} {ts ts' : Threads} {i : Nat}

structure CheckPhase (s : Store) (reqs : List Request) (w : World) (ts : Threads) : Prop where
  store : w.store = s
  coherent : w.Coherent
  threads : List.Forall₂ (fun req => Sat s.Answers s.CheckCall (s.Backs req)) reqs ts

theorem CheckPhase.step {s : Store} {reqs : List Request} (h : CheckPhase s reqs w ts)
    (hs : stepThread env w ts i = some (w', ts')) : CheckPhase s reqs w' ts' := by
  obtain ⟨c, k, hi, rfl, rfl⟩ := stepThread_eq_some hs
  obtain ⟨req, hreq, hc, hk⟩ := forall₂_get? h.threads hi
  obtain ⟨hst, hco⟩ := World.perform_checkCall env w h.coherent (h.store ▸ hc)
  refine ⟨hst.trans h.store, hco, forall₂_set h.threads fun a ha => ?_⟩
  cases hreq.symm.trans ha
  exact hk _ (h.store ▸ World.perform_answers env w h.coherent c)

theorem Phase.Runs.checks {ph : Phase} (hrun : ph.Runs env w w') (hw : w.Coherent)
    (hchecks : ph.requests.all (·.1.isCheck) = true)
    (hcolon : ∀ q ∈ ph.requests, q.1.colonFree = true) :
    w'.store = w.store ∧ w'.Coherent ∧ ∀ q ∈ ph.requests, w.store.Backs q.1 q.2 := by
  have hinit : CheckPhase w.store (ph.requests.map (·.1)) w (ph.requests.map (·.1.prog)) := by
    refine ⟨rfl, hw, ?_⟩
    simp only [List.forall₂_map_left_iff, List.forall₂_map_right_iff, List.forall₂_same]
    exact fun q hq => sat_check_prog (List.all_eq_true.1 hchecks q hq) (hcolon q hq)
  have hend := runSchedule_inv (CheckPhase w.store (ph.requests.map (·.1)))
    (fun _ _ _ _ _ h hs => h.step hs) ph.schedule hinit hrun.eq_runSchedule
  have hthreads := hend.threads
  simp only [List.map_map, List.forall₂_map_left_iff, List.forall₂_map_right_iff,
    List.forall₂_same] at hthreads
  exact ⟨hend.store, hend.coherent, hthreads⟩

structure MutationPhase (w : World) (ts : Threads) : Prop where
  no_set : ∀ t ∈ ts, Only Call.NoCacheSet t
  clears : w.cache.grants = [] ∨ ∀ t ∈ ts, ClearsBefore (fun resp => !resp.failed) t

theorem MutationPhase.step (h : MutationPhase w ts) (hs : stepThread env w ts i = some (w', ts')) :
    MutationPhase w' ts' := by
  obtain ⟨c, k, hi, rfl, rfl⟩ := stepThread_eq_some hs
  have hmem := List.get?_mem hi
  have hset : ∀ {P : Prog Response → Prop}, (∀ t ∈ ts, P t) →
      P (k (w.perform env c).1) →
      ∀ t ∈ ts.set i (k (w.perform env c).1), P t :=
    fun hall hk t ht => (List.mem_or_eq_of_mem_set ht).elim (hall t) fun h => h ▸ hk
  refine ⟨hset h.no_set ((h.no_set _ hmem).2 _), ?_⟩
  rcases h.clears with h0 | hall
  · exact .inl (World.perform_grants_nil env w (h.no_set _ hmem).1 h0)
  rcases hall _ hmem with rfl | hk
  · exact .inl (by simp [World.perform, World.next])
  · exact .inr (hset hall (hk _))

theorem Phase.Runs.mutations {ph : Phase} (hrun : ph.Runs env w w') (hw : w.Coherent)
    (hmut : ph.requests.all (·.1.touchesPolicy) = true)
    (hok : ∀ q ∈ ph.requests, q.1.touchesPolicy = true → q.2.failed = false) :
    w'.Coherent := by
  have hmut := List.all_eq_true.1 hmut
  have hend := runSchedule_inv (fun w ts => MutationPhase w ts) (fun _ _ _ _ _ h hs => h.step hs)
    ph.schedule ⟨?_, .inr ?_⟩ hrun.eq_runSchedule
  · rcases hend.clears with h0 | hall
    · intro k hk; rw [h0] at hk; cases hk
    cases hreqs : ph.requests with
    | nil =>
      have hrun := hrun.eq_runSchedule
      rw [hreqs] at hrun
      rwa [runSchedule_nil hrun]
    | cons q _ =>
      have hq : q ∈ ph.requests := by simp [hreqs]
      have := hall _ (List.mem_map.2 ⟨q.2, List.mem_map_of_mem _ hq, rfl⟩)
      simp [hok q hq (hmut q hq)] at this
  · simp only [List.mem_map]
    rintro _ ⟨q, hq, rfl⟩
    exact only_noCacheSet (hmut q hq)
  · simp only [List.mem_map]
    rintro _ ⟨q, hq, rfl⟩
    exact clearsBefore_prog (hmut q hq)

end Phase

/--
In a run of phases, each of checks only or of policy mutations only, from a
world whose cached grants its store supports, where every mutation succeeds
and no check names a permission with `:`, every check answers with a grant
only if the uncached evaluation on the store of its phase grants.
-/
theorem phased_checks_backed (env : Env) (w w' : World) (trace : List (World × Phase))
    (hrun : RunsPhases env w trace w') (hw : w.Coherent)
    (hsep : ∀ e ∈ trace, e.2.Separate = true)
    (hcolon : ∀ e ∈ trace, ∀ q ∈ e.2.requests, q.1.colonFree = true)
    (hok : ∀ e ∈ trace, ∀ q ∈ e.2.requests,
      q.1.touchesPolicy = true → q.2.failed = false) :
    ∀ e ∈ trace, ∀ q ∈ e.2.requests, e.1.store.Backs q.1 q.2 := by
  induction hrun with
  | nil => intro e he; cases he
  | @cons w w₁ w' ph rest hph _ ih =>
    have hsep₀ := hsep _ (List.mem_cons_self _ _)
    have hnext : w₁.Coherent ∧ ∀ q ∈ ph.requests, w.store.Backs q.1 q.2 := by
      simp only [Phase.Separate, Bool.or_eq_true] at hsep₀
      rcases hsep₀ with hc | hm
      · obtain ⟨-, hco, hb⟩ := hph.checks hw hc (hcolon _ (List.mem_cons_self _ _))
        exact ⟨hco, hb⟩
      · refine ⟨hph.mutations hw hm (hok _ (List.mem_cons_self _ _)), fun q hq => ?_⟩
        exact w.store.backs_of_not_check (Request.isCheck_of_touchesPolicy
          (List.all_eq_true.1 hm q hq)) q.2
    intro e he
    rcases List.mem_cons.1 he with rfl | he
    · exact hnext.2
    · exact ih hnext.1 (fun e he => hsep e (.tail _ he)) (fun e he => hcolon e (.tail _ he))
        (fun e he => hok e (.tail _ he)) e he

def aliceCheck : Request := .checkPermission (lit "alice") 1 (lit "read") []

def checkedWorld : World := (runRequests Env.reliable [aliceCheck] grantWorld).2

def policyDeletedWorld : World :=
  (runRequests Env.reliable [.deletePolicy 1 (UUID.string 9)] checkedWorld).2

def recheckedWorld : World := (runRequests Env.reliable [aliceCheck] policyDeletedWorld).2

def revokeTrace : List (World × Phase) :=
  [(grantWorld,
     ⟨[(aliceCheck, .decision ⟨true, grantReason (lit "reader") 1, none⟩)],
      [0, 0, 0, 0, 0]⟩),
   (checkedWorld, ⟨[(.deletePolicy 1 (UUID.string 9), .done (.ok ()))], [0, 0, 0]⟩),
   (policyDeletedWorld,
     ⟨[(aliceCheck,
        .decision ⟨false, lit "Permission denied: no matching policy found", none⟩)],
      [0, 0, 0, 0]⟩)]

theorem phased_checks_backed_revoke :
    RunsPhases Env.reliable grantWorld revokeTrace recheckedWorld ∧ grantWorld.Coherent ∧
    (∀ e ∈ revokeTrace, e.2.Separate = true) ∧
    (∀ e ∈ revokeTrace, ∀ q ∈ e.2.requests, q.1.colonFree = true) ∧
    (∀ e ∈ revokeTrace, ∀ q ∈ e.2.requests,
      q.1.touchesPolicy = true → q.2.failed = false) ∧
    ∀ e ∈ revokeTrace, ∀ q ∈ e.2.requests, e.1.store.Backs q.1 q.2 :=
  have hrun : RunsPhases Env.reliable grantWorld revokeTrace recheckedWorld :=
    .cons rfl (.cons rfl (.cons rfl (.nil _)))
  have hw : grantWorld.Coherent := fun k hk => by
    rw [show grantWorld.cache.grants = [] by decide] at hk; cases hk
  have hsep : ∀ e ∈ revokeTrace, e.2.Separate = true := by decide
  have hcolon : ∀ e ∈ revokeTrace, ∀ q ∈ e.2.requests, q.1.colonFree = true := by decide
  have hok : ∀ e ∈ revokeTrace, ∀ q ∈ e.2.requests,
      q.1.touchesPolicy = true → q.2.failed = false := by
    decide
  ⟨hrun, hw, hsep, hcolon, hok,
    phased_checks_backed Env.reliable grantWorld recheckedWorld revokeTrace hrun hw hsep hcolon
      hok⟩

end Iam
