import Iam.Properties.PolicyInvariants
import Iam.Service.CacheSpec

/-!
# A successful `UpdatePolicy`

`UpdatePolicy` soft-deletes the bindings it read and then inserts the ones it
was sent.  A soft delete keeps the row with its primary key, so a binding
sent back under the id of one it replaces is refused by that key once the
old bindings are gone: the call fails and leaves the policy without them.
Sent with no id or a new one, every binding is inserted, and the policy is
saved at the next version with an etag `BeforeUpdate` draws from
`uuid.New()`, which no policy row has held.

The proof follows the call: the run of each loop when no call fails
(`exec_deleteBindings_ok`, `exec_createBindings_ok`), the save checked
against the invariants of the policy tables, and what `Preload` then reads.
-/

namespace Iam

open Prog

/-! ## Runs with no failed call -/

theorem exec_freshID (env : Env) (w : World) (id : UUID) :
    ∃ t, w.tick ≤ t ∧ t ≤ w.tick + 1 ∧ (freshID id).exec env w =
      (if id = UUID.nil then env.uuid w.tick else id, { w with tick := t }) := by
  unfold freshID
  split
  · exact ⟨_, Nat.le_succ _, le_rfl, rfl⟩
  · exact ⟨_, le_rfl, Nat.le_succ _, rfl⟩

theorem exec_bindingRepository_create_ok (env : Env) (w : World) (b : Binding)
    (hplain : b.plain = true) (hf : ∀ n, w.tick ≤ n → env.fails n = false)
    (hpid : Table.holds PolicyRecord.id w.store.policies b.policyID = true)
    (hrole : Table.holds RoleRecord.id w.store.roles b.roleID = true)
    (hjson : Json.jsonbAccepts b.members = true) (hconds : w.store.ConditionsHeld)
    (hid : Table.holds BindingRecord.id w.store.bindings
      (if b.id = UUID.nil then env.uuid w.tick else b.id) = false) :
    ∃ B s t, (BindingRepository.create b).exec env w = ((B, .ok ()), ⟨s, w.cache, t⟩) ∧
      w.tick < t ∧ t ≤ w.tick + 3 ∧ s.ConditionsHeld ∧
      s = { w.store with
        bindings := w.store.bindings ++ [⟨⟨if b.id = UUID.nil then env.uuid w.tick else b.id,
          b.policyID, b.roleID, b.members⟩, false⟩]
        conditions := s.conditions } := by
  obtain ⟨hrole₀, hpol₀⟩ := Binding.plain_iff.1 hplain
  obtain ⟨t₁, ht₁, ht₁', h₁⟩ := exec_freshID env w b.id
  have hB : b.beforeCreate.exec env w =
      ({ b with id := if b.id = UUID.nil then env.uuid w.tick else b.id },
        { w with tick := t₁ }) := by
    simp only [Binding.beforeCreate, Prog.exec_bind, h₁]; rfl
  simp only [BindingRepository.create, Prog.exec_bind, hB, hrole₀, hpol₀, Prog.forOption,
    Prog.exec_pure]
  set i := if b.id = UUID.nil then env.uuid w.tick else b.id
  -- the insert, at the tick the hooks leave, of whatever condition they built
  have hinsert : ∀ (cond : Option Condition) (t₂ : Nat), w.tick ≤ t₂ → t₂ ≤ w.tick + 2 →
      cond.all (·.bindingID == i) = true →
      ∃ s, World.write env ⟨w.store, w.cache, t₂⟩
          (w.store.bindingCreate ⟨i, b.policyID, b.roleID, none, b.members, cond, none⟩) =
        (.ok (), ⟨s, w.cache, t₂ + 1⟩) ∧ s.ConditionsHeld ∧
        s = { w.store with
          bindings := w.store.bindings ++ [⟨⟨i, b.policyID, b.roleID, b.members⟩, false⟩]
          conditions := s.conditions } := fun cond t₂ ht ht' hc => by
    let B : Binding := ⟨i, b.policyID, b.roleID, none, b.members, cond, none⟩
    obtain ⟨s, hw, hs⟩ := hconds.withBinding_ok (b := B) hid hc
    exact ⟨s, World.write_ok env _ (hf t₂ ht) ((Store.bindingCreate_of_plain (b := B) rfl).trans
      (Store.bindingInsert_eq_ok.2 ⟨hid, hpid, hrole, hjson, hw⟩)), hs, Store.withBinding_eq_ok hw⟩
  cases hc : b.condition with
  | none =>
    simp only [hB, Prog.pure_eq, Prog.pure_bind, lift, call_bind, Prog.exec_call, World.perform]
    obtain ⟨s, hw, hs, hshape⟩ := hinsert none t₁ ht₁ (by omega) rfl
    rw [hw]
    exact ⟨_, s, _, rfl, by omega, by omega, hs, hshape⟩
  | some c =>
    simp only [hc]
    obtain ⟨t₂, ht₂, ht₂', h₂⟩ := exec_freshID env ⟨w.store, w.cache, t₁⟩ c.id
    have hC : ({ c with bindingID := i } : Condition).beforeCreate.exec env
        ⟨w.store, w.cache, t₁⟩ =
        ({ c with bindingID := i, id := if c.id = UUID.nil then env.uuid t₁ else c.id },
          ⟨w.store, w.cache, t₂⟩) := by
      simp only [Condition.beforeCreate, Prog.exec_bind, h₂]; rfl
    simp only [hB, hC, Prog.exec_bind, Prog.exec_map, Prog.pure_eq, Prog.pure_bind, lift, call_bind,
      Prog.exec_call, World.perform]
    dsimp only at ht₂ ht₂'
    obtain ⟨s, hw, hs, hshape⟩ := hinsert
      (some { c with bindingID := i, id := if c.id = UUID.nil then env.uuid t₁ else c.id }) t₂
      (by omega) (by omega) (by simp)
    rw [hw]
    exact ⟨_, s, _, rfl, by omega, by omega, hs, hshape⟩

def RowFor (pid : UUID) (row : Row BindingRecord) (b : Binding) : Prop :=
  row.deleted = false ∧ row.val.policyID = pid ∧ row.val.roleID = b.roleID ∧
    row.val.members = b.members ∧ (b.id ≠ UUID.nil → row.val.id = b.id)

theorem exec_createBindings_ok (env : Env) (pid : UUID) (T : Nat) :
    ∀ (bs : List Binding) (w : World), w.tick + 3 * bs.length ≤ T →
    (∀ n, w.tick ≤ n → env.fails n = false) →
    Table.holds PolicyRecord.id w.store.policies pid = true → w.store.ConditionsHeld →
    (∀ b ∈ bs, b.plain = true) →
    (∀ b ∈ bs, Table.holds RoleRecord.id w.store.roles b.roleID = true ∧
      Json.jsonbAccepts b.members = true) →
    (∀ b ∈ bs, b.id ≠ UUID.nil →
      Table.holds BindingRecord.id w.store.bindings b.id = false) →
    bs.Pairwise (fun a b => a.id ≠ UUID.nil → a.id ≠ b.id) →
    (∀ i j, w.tick ≤ i → i < j → j < T → env.uuid i ≠ env.uuid j) →
    (∀ k, w.tick ≤ k → k < T →
      Table.holds BindingRecord.id w.store.bindings (env.uuid k) = false ∧
      ∀ b ∈ bs, b.id ≠ env.uuid k) →
    ∃ new s t, (createBindings pid bs).exec env w = (.ok (), ⟨s, w.cache, t⟩) ∧
      w.tick ≤ t ∧ t ≤ w.tick + 3 * bs.length ∧
      s = { w.store with bindings := w.store.bindings ++ new, conditions := s.conditions } ∧
      List.Forall₂ (RowFor pid) new bs
  | [], w, _, _, _, _, _, _, _, _, _, _ =>
    ⟨[], w.store, w.tick, rfl, le_rfl, by simp, by simp, .nil⟩
  | b :: rest, w, hT, hf, hpid, hconds, hplain, hok, hids, hdist, hinj, hfresh => by
    simp only [List.length_cons] at hT
    obtain ⟨hrole, hjson⟩ := hok b (List.mem_cons_self _ _)
    obtain ⟨hdb, hdist⟩ := List.pairwise_cons.1 hdist
    set i := if b.id = UUID.nil then env.uuid w.tick else b.id with hi_def
    -- the id the row gets is new, and no later draw or other binding names it
    have hi : Table.holds BindingRecord.id w.store.bindings i = false ∧
        (∀ k, w.tick < k → k < T → i ≠ env.uuid k) ∧
        ∀ b' ∈ rest, b'.id ≠ UUID.nil → i ≠ b'.id := by
      by_cases hb : b.id = UUID.nil
      · simp only [hi_def, hb, if_true]
        exact ⟨(hfresh w.tick le_rfl (by omega)).1, fun k hk hkT => hinj _ _ le_rfl hk hkT,
          fun b' hb' _ h => (hfresh w.tick le_rfl (by omega)).2 b' (List.mem_cons_of_mem _ hb')
            h.symm⟩
      · simp only [hi_def, hb, if_false]
        exact ⟨hids b (List.mem_cons_self _ _) hb,
          fun k hk hkT => (hfresh k (by omega) hkT).2 b (List.mem_cons_self _ _),
          fun b' hb' _ => hdb b' hb' hb⟩
    obtain ⟨B, s₁, t₁, h₁, ht₁, ht₁', hconds₁, hs₁⟩ :=
      exec_bindingRepository_create_ok env w { b with policyID := pid }
        (hplain b (List.mem_cons_self _ _)) hf hpid hrole hjson hconds hi.1
    obtain ⟨new, s, t, h, ht, ht', hs, hrows⟩ := exec_createBindings_ok env pid T rest
      ⟨s₁, w.cache, t₁⟩ (by dsimp only; omega)
      (fun n hn => hf n (by dsimp only at hn; omega)) (by rw [hs₁]; exact hpid) hconds₁
      (fun b' hb' => hplain b' (List.mem_cons_of_mem _ hb'))
      (fun b' hb' => by rw [hs₁]; exact hok b' (List.mem_cons_of_mem _ hb'))
      (fun b' hb' hne => by
        rw [hs₁]
        exact Table.holds_append_new (hids b' (List.mem_cons_of_mem _ hb') hne) (hi.2.2 b' hb' hne))
      hdist (fun i j hi hij hj => hinj i j (by dsimp only at hi; omega) hij hj)
      (fun k hk hkT => by
        dsimp only at hk
        rw [hs₁]
        exact ⟨Table.holds_append_new (hfresh k (by omega) hkT).1 (hi.2.1 k (by omega) hkT),
          fun b' hb' => (hfresh k (by omega) hkT).2 b' (List.mem_cons_of_mem _ hb')⟩)
    refine ⟨⟨⟨i, pid, b.roleID, b.members⟩, false⟩ :: new, s, t, ?_,
      by dsimp only at ht; omega, by simp only [List.length_cons]; dsimp only at ht'; omega, ?_,
      .cons ⟨rfl, rfl, rfl, rfl, fun hb => if_neg hb⟩ hrows⟩
    · simp only [createBindings, Prog.exec_bind, h₁]
      exact h
    · rw [hs, hs₁]
      simp

theorem exec_deleteBindings_ok (env : Env) : ∀ (bs : List Binding) (w : World),
    (∀ n, w.tick ≤ n → env.fails n = false) →
    (deleteBindings bs).exec env w = (.ok (), ⟨{ w.store with
      bindings := Table.softDeleteAll BindingRecord.id w.store.bindings (bs.map (·.id)) },
      w.cache, w.tick + bs.length⟩)
  | [], w, _ => rfl
  | b :: rest, w, hf => by
    simp only [deleteBindings, BindingRepository.delete, lift, call_bind, pure_bind,
      Prog.exec_call, World.perform]
    rw [World.write_ok env w (hf _ le_rfl) rfl]
    dsimp only [World.next]
    rw [exec_deleteBindings_ok env rest _ fun n hn => hf n (by dsimp only at hn; omega)]
    simp only [List.map_cons, List.length_cons, Table.softDeleteAll, List.foldl_cons]
    congr 2
    omega

/-! ## What `Preload` reads -/

def Replaces (pid : UUID) (b' b : Binding) : Prop :=
  b'.policyID = pid ∧ b'.roleID = b.roleID ∧ b'.members = b.members ∧
    (b.id ≠ UUID.nil → b'.id = b.id)

/--
One binding per element of `bs`, in whichever order the `Bindings` preload
returns them: its query has no `ORDER BY`.
-/
def ReplacesAll (pid : UUID) (bs' bs : List Binding) : Prop :=
  ∃ l, l.Perm bs ∧ List.Forall₂ (Replaces pid) bs' l

theorem ReplacesAll.of_forall₂ {pid : UUID} {bs' bs : List Binding}
    (h : List.Forall₂ (Replaces pid) bs' bs) : ReplacesAll pid bs' bs :=
  ⟨bs, List.Perm.refl _, h⟩

namespace Store

theorem mem_loadPolicy_bindings (s : Store) (p : PolicyRecord) {row : Row BindingRecord}
    (h : row ∈ s.bindings) (hl : row.deleted = false) (hp : row.val.policyID = p.id) :
    s.loadBinding row.val ∈ (s.loadPolicy p).bindings :=
  List.mem_filterMap.2 ⟨row, h, by simp [hl, hp]⟩

theorem loadPolicy_bindings_replaced {s : Store} {p : PolicyRecord}
    {old new : List (Row BindingRecord)} {ids : List UUID} {bs : List Binding}
    (hold : ∀ row ∈ old, row.deleted = false → row.val.policyID = p.id → row.val.id ∈ ids)
    (hs : s.bindings = Table.softDeleteAll BindingRecord.id old ids ++ new)
    (hnew : List.Forall₂ (RowFor p.id) new bs) :
    List.Forall₂ (Replaces p.id) (s.loadPolicy p).bindings bs := by
  unfold loadPolicy
  dsimp only
  rw [hs, List.filterMap_append, List.filterMap_eq_nil_iff.2 fun row hr => ?_, List.nil_append]
  · clear hs
    induction hnew with
    | nil => exact .nil
    | cons hrow _ ih =>
      obtain ⟨hl, hp, hr, hm, hid⟩ := hrow
      rw [List.filterMap_cons, if_pos (by simp [hl, hp])]
      exact .cons ⟨hp, hr, hm, hid⟩ ih
  · cases hl : row.deleted
    · obtain ⟨hmem, hnot⟩ := Table.mem_softDeleteAll_live hr hl
      have hp : row.val.policyID ≠ p.id := fun hp => hnot (hold row hmem hl hp)
      simp [hp]
    · simp

theorem policyGetByResourceID_save {s s' : Store} {r : UUID} {P : Policy} {v : PolicyRecord}
    (hk : s.ResourceKeyed) (hP : s.policyGetByResourceID r = some P) (hv : v.id = P.id)
    (hvr : v.resourceID = r) (hs' : s'.policies = Table.save PolicyRecord.id s.policies v) :
    s'.policyGetByResourceID r = some (s'.loadPolicy v) := by
  obtain ⟨row, hrow, hid, hres⟩ := policyGetByResourceID_eq_some hP
  have hheld : Table.holds PolicyRecord.id s.policies v.id = true :=
    List.any_eq_true.2 ⟨row, hrow, by simp [hid, hv]⟩
  unfold policyGetByResourceID
  rw [hs', Table.save, if_pos hheld, List.find?_map]
  set g : Row PolicyRecord → Row PolicyRecord :=
    fun r => if (r.val.id == v.id) = true then ⟨v, false⟩ else r
  obtain ⟨row₀, h₀⟩ := Option.isSome_iff_exists.1 ((List.find?_isSome
    (p := (fun x => !x.deleted && x.val.resourceID == r) ∘ g)).2
      ⟨row, hrow, by simp [g, hid, hv, hvr]⟩)
  have hid₀ : row₀.val.id = v.id := by
    have hq₀ := List.find?_some h₀
    by_contra hne
    simp only [g, Function.comp, beq_iff_eq, hne, if_false, Bool.and_eq_true, beq_iff_eq] at hq₀
    exact hne ((hk _ (List.mem_of_find?_eq_some h₀) _ hrow (by rw [hq₀.2, hres])).trans
      (hid.trans hv.symm))
  rw [h₀]
  simp [g, hid₀]

theorem policyGetByResourceID_load {s : Store} {r : UUID} {p : Policy}
    (h : s.policyGetByResourceID r = some p) :
    ∃ row ∈ s.policies, row.val.resourceID = r ∧ p = s.loadPolicy row.val := by
  obtain ⟨row, hf, rfl⟩ := Option.map_eq_some'.1 h
  exact ⟨row, List.mem_of_find?_eq_some hf,
    (by simpa using List.find?_some hf : _ ∧ _).2, rfl⟩

end Store

/-! ## `UpdatePolicy` -/

/--
A bound on the calls `UpdatePolicy` makes, each taking one tick: the read, a
delete per binding it read, at most three calls per binding sent (two
`uuid.New()` and the insert), and the `uuid.New()` and save of `BeforeUpdate`,
the clear and the read back.
-/
def updatePolicyCalls (P : Policy) (bs : List Binding) : Nat :=
  P.bindings.length + 3 * bs.length + 5

theorem exec_updatePolicy_ok (env : Env) (w : World) (r : UUID) (P : Policy) (bs : List Binding)
    (hinv : w.PolicyTables env) (hint : w.store.Integrity)
    (hP : w.store.policyGetByResourceID r = some P)
    (hf : ∀ n, w.tick ≤ n → env.fails n = false) (hplain : ∀ b ∈ bs, b.plain = true)
    (hok : ∀ b ∈ bs, Table.holds RoleRecord.id w.store.roles b.roleID = true ∧
      Json.jsonbAccepts b.members = true)
    (hids : ∀ b ∈ bs, b.id ≠ UUID.nil →
      Table.holds BindingRecord.id w.store.bindings b.id = false)
    (hdist : bs.Pairwise fun a b => a.id ≠ UUID.nil → a.id ≠ b.id)
    (hnew : ∀ k, w.tick ≤ k → k < w.tick + updatePolicyCalls P bs →
      (∀ i < k, env.uuid i ≠ env.uuid k) ∧
      Table.holds BindingRecord.id w.store.bindings (env.uuid k) = false ∧
      ∀ b ∈ bs, b.id ≠ env.uuid k) :
    ∃ P' t, ((updatePolicy r bs P.etag).exec env w).1 = .ok (some P') ∧
      ((updatePolicy r bs P.etag).exec env w).2.store.policyGetByResourceID r = some P' ∧
      P'.id = P.id ∧ P'.version = P.version + 1 ∧ w.tick ≤ t ∧
      t < w.tick + updatePolicyCalls P bs ∧ P'.etag = UUID.string (env.uuid t) ∧
      List.Forall₂ (Replaces P.id) P'.bindings bs := by
  obtain ⟨prow, hprow, hres, hPeq⟩ := Store.policyGetByResourceID_load hP
  unfold updatePolicy
  simp only [PolicyRepository.getByResourceID, lift, call_bind, Prog.pure_bind, Prog.exec_call,
    World.perform]
  rw [World.read_ok env w _ (hf _ le_rfl), hP]
  dsimp only
  rw [if_neg (by simp)]
  simp only [Prog.pure_eq, Prog.pure_bind, Prog.exec_bind]
  rw [exec_deleteBindings_ok env _ _ fun n hn => hf n (by simp only [World.next_tick] at hn; omega)]
  dsimp only [World.next]
  have hpid : Table.holds PolicyRecord.id w.store.policies P.id = true :=
    List.any_eq_true.2 ⟨prow, hprow, by simp [hPeq, Store.loadPolicy]⟩
  obtain ⟨new, s₁, t₁, h₁, ht₁, ht₁', hs₁, hrows⟩ :=
    exec_createBindings_ok env P.id (w.tick + updatePolicyCalls P bs) bs
      ⟨{ w.store with
        bindings :=
          Table.softDeleteAll BindingRecord.id w.store.bindings (P.bindings.map (·.id)) },
        w.cache, w.tick + 1 + P.bindings.length⟩ (by dsimp only; unfold updatePolicyCalls; omega)
      (fun n hn => hf n (by dsimp only at hn; omega)) hpid
      (fun c hc => by simpa using hinv.conditions c hc) hplain hok
      (fun b hb hne => by simpa using hids b hb hne) hdist
      (fun i j hi hij hj => (hnew j (by dsimp only at hi; omega) hj).1 i hij)
      (fun k hk hkT => by simpa using (hnew k (by dsimp only at hk; omega) hkT).2)
  rw [Prog.exec_bind, h₁]
  dsimp only
  rw [Prog.exec_bind, policyRepository_update_exec]
  dsimp only
  have hpol : s₁.policies = w.store.policies := by rw [hs₁]
  have hrsc : s₁.resources = w.store.resources := by rw [hs₁]
  have hbnd : s₁.bindings =
      Table.softDeleteAll BindingRecord.id w.store.bindings (P.bindings.map (·.id)) ++ new := by
    rw [hs₁]
  have hPrec : P.id = prow.val.id ∧ P.resourceID = prow.val.resourceID := by
    rw [hPeq]; exact ⟨rfl, rfl⟩
  set P₁ : Policy := { P with etag := UUID.string (env.uuid t₁), version := P.version + 1 }
  set v := Store.PolicyRecord.ofPolicy P₁
  have hupd : s₁.policyUpdate P₁ =
      .ok { s₁ with policies := Table.save PolicyRecord.id s₁.policies v } := by
    refine Store.policyUpdate_eq_ok.2 ⟨?_, ?_, rfl⟩
    · rw [hpol, List.any_eq_false]
      intro row hrow
      simp only [Bool.and_eq_true, beq_iff_eq, bne_iff_ne, ne_eq, not_and, not_not, P₁, hPrec]
      exact hinv.keyed row hrow prow hprow
    · rw [hrsc, hPrec.2]
      exact hint.policy_resources prow hprow
  dsimp only at ht₁ ht₁'
  rw [World.write_ok env _ (hf (t₁ + 1) (by omega)) hupd]
  simp only [World.next, cacheClear, PolicyRepository.getByID, lift, call_bind, Prog.pure_bind,
    Prog.exec_call, Prog.exec_bind, World.perform, Prog.exec_pure]
  rw [World.read_ok env _ _ (hf _ (by dsimp only; omega))]
  set S : Store := { s₁ with
    policies := Table.save PolicyRecord.id s₁.policies v }
  have hget : S.policyGetByID P.id = some (S.loadPolicy v) :=
    congrArg (Option.map _) (Table.live_save _ _)
  refine ⟨S.loadPolicy v, t₁, by rw [hget]; rfl, ?_, rfl, rfl,
    by omega, by unfold updatePolicyCalls; omega, rfl, ?_⟩
  · exact Store.policyGetByResourceID_save hinv.keyed hP rfl (hPrec.2.trans hres)
      (by simp only [S, hpol])
  · refine Store.loadPolicy_bindings_replaced (s := S) (p := v)
      (fun row hrow hl hp => ?_) hbnd hrows
    rw [hPeq]
    exact List.mem_map.2 ⟨_, Store.mem_loadPolicy_bindings w.store prow.val hrow hl
      (hp.trans hPrec.1), rfl⟩

theorem boundReachable : Reachable Env.reliable (fun _ => Request.NoPolicyAssoc) boundWorld :=
  (Reachable.runRequests_of (policySetup []) (by decide) (.init .noop 0)).step _ (by decide)

def newBindings : List Binding :=
  [⟨UUID.nil, UUID.nil, 4, none, Json.marshalStrings [lit "bob"],
    some ⟨UUID.nil, UUID.nil, lit "weekdays", [], []⟩, none⟩,
   ⟨100, UUID.nil, 4, none, Json.marshalStrings [lit "carol"], none, none⟩]

def resentBinding : Binding :=
  { id := 12, policyID := 6, roleID := 4, role := none,
    members := Json.marshalStrings [lit "alice"], condition := none }

theorem Prog.exec_tick_le (env : Env) {α : Type} (x : Prog α) (w : World) :
    w.tick ≤ (x.exec env w).2.tick := by
  induction x generalizing w with
  | pure a => exact Nat.le_refl _
  | call c k ih =>
    have := ih (w.perform env c).1 (w.perform env c).2
    rw [World.perform_tick] at this
    exact Nat.le_of_succ_le this

end Iam
