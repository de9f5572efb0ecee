import Iam.Service.CacheRuns

/-!
# The cleanup goroutine cannot be observed

`NewCacheService` starts `cleanup`, which at every tick takes the lock and
evicts the expired entries.  Its ticks are internal steps of the cache: with
a clock that does not go back, a `Get` answers the same whether or not the
sweeper ran, and whenever it ran (`get_run_without_sweeps`).  `Get` reads an
entry only while it has not expired, and `Set` on a full map sweeps by itself
and discards the map only if the unexpired entries still fill it, so the
entries a tick removes never decide anything.

Two caches agree at reading `t` (`LiveAgree`) when they have the same
settings, each is a map, and they hold the same unexpired entries at `t`.  A
later reading, a call made on both, and a tick on one side keep the
agreement; by induction over the run, a run and the same run without its
ticks agree at every reading after them.
-/

namespace Iam

variable {α : Type}

def CacheOp.isSweep : CacheOp α → Bool
  | .sweep => true
  | _ => false

namespace CacheService

def unexpired (t : Int) (l : List (GoString × CacheEntry α)) : List (GoString × CacheEntry α) :=
  l.filter fun kv => !(t > kv.2.expiration)

@[simp] theorem evictExpired_data (c : CacheService α) (t : Int) :
    (c.evictExpired t).data = unexpired t c.data := rfl

theorem unexpired_cons (t : Int) (kv : GoString × CacheEntry α)
    (l : List (GoString × CacheEntry α)) :
    unexpired t (kv :: l) = if t > kv.2.expiration then unexpired t l else kv :: unexpired t l := by
  by_cases h : t > kv.2.expiration <;> simp [unexpired, List.filter_cons, h]

theorem unexpired_filter (t : Int) (p : GoString × CacheEntry α → Bool)
    (l : List (GoString × CacheEntry α)) : unexpired t (l.filter p) = (unexpired t l).filter p := by
  simp only [unexpired, List.filter_filter, Bool.and_comm]

theorem unexpired_unexpired {t t' : Int} (h : t ≤ t') (l : List (GoString × CacheEntry α)) :
    unexpired t' (unexpired t l) = unexpired t' l := by
  rw [unexpired, unexpired, List.filter_filter]
  refine List.filter_congr fun kv _ => ?_
  by_cases h' : t' > kv.2.expiration
  · simp [h']
  · have : ¬t > kv.2.expiration := by omega
    simp [h', this]

theorem lookup_unexpired (t : Int) (key : GoString) :
    ∀ l : List (GoString × CacheEntry α), (l.map (·.1)).Nodup →
      (unexpired t l).lookup key = (l.lookup key).filter fun e => !(t > e.expiration)
  | [], _ => rfl
  | (k, e) :: l, hl => by
    obtain ⟨hk, hl⟩ := List.nodup_cons.1 hl
    rw [unexpired_cons, List.lookup_cons]
    by_cases hke : key = k
    · subst hke
      have hnone : (unexpired t l).lookup key = none :=
        List.lookup_eq_none_iff.2 fun p hp => bne_iff_ne.2 fun h =>
          hk (List.mem_map.2 ⟨p, List.mem_of_mem_filter hp, h.symm⟩)
      by_cases hx : t > e.expiration <;> simp [hx, hnone, Option.filter]
    · have ih := lookup_unexpired t key l hl
      by_cases hx : t > e.expiration <;> simp [hx, beq_false_of_ne hke, List.lookup_cons, ih]

theorem get_eq_unexpired {c : CacheService α} (hc : (c.data.map (·.1)).Nodup) (t : Int)
    (key : GoString) :
    c.get t key = if !c.enabled then none else ((unexpired t c.data).lookup key).map (·.value) := by
  rw [get, lookup_unexpired t key _ hc]
  cases c.data.lookup key with
  | none => rfl
  | some e => by_cases h : t > e.expiration <;> simp [h, Option.filter]

theorem unexpired_roomFor (c : CacheService α) (now : Int) :
    unexpired now (c.roomFor now) =
      if c.cfg.maxSize ≤ (unexpired now c.data).length then [] else unexpired now c.data := by
  have hle : (unexpired now c.data).length ≤ c.data.length := List.length_filter_le _ _
  unfold roomFor
  rw [evictExpired_data]
  split_ifs with h₁ h₂ h₂
  · rfl
  · exact unexpired_unexpired (Int.le_refl now) _
  · omega
  · rfl

/-! ## Caches that agree from a reading on -/

/-- Caches that answer every `Get` alike from reading `t` on: the same settings, both maps, and
the same unexpired entries at `t`. -/
structure LiveAgree (t : Int) (c₁ c₂ : CacheService α) : Prop where
  cfg : c₁.cfg = c₂.cfg
  enabled : c₁.enabled = c₂.enabled
  ttl : c₁.ttl = c₂.ttl
  nodup₁ : (c₁.data.map (·.1)).Nodup
  nodup₂ : (c₂.data.map (·.1)).Nodup
  same : unexpired t c₁.data = unexpired t c₂.data

variable {t now : Int} {c₁ c₂ : CacheService α}

theorem LiveAgree.refl {c : CacheService α} (hc : (c.data.map (·.1)).Nodup) (t : Int) :
    LiveAgree t c c :=
  ⟨rfl, rfl, rfl, hc, hc, rfl⟩

theorem LiveAgree.mono (h : LiveAgree t c₁ c₂) (ht : t ≤ now) : LiveAgree now c₁ c₂ :=
  { h with same := by rw [← unexpired_unexpired ht, h.same, unexpired_unexpired ht] }

theorem LiveAgree.get (h : LiveAgree t c₁ c₂) (key : GoString) : c₁.get t key = c₂.get t key := by
  rw [get_eq_unexpired h.nodup₁, get_eq_unexpired h.nodup₂, h.enabled, h.same]

theorem LiveAgree.apply (h : LiveAgree now c₁ c₂) (op : CacheOp α) :
    LiveAgree now (c₁.apply now op) (c₂.apply now op) where
  cfg := by rw [cfg_apply, cfg_apply, h.cfg]
  enabled := by rw [enabled_apply, enabled_apply, h.enabled]
  ttl := by rw [ttl_apply, ttl_apply, h.ttl]
  nodup₁ := keys_nodup_apply h.nodup₁
  nodup₂ := keys_nodup_apply h.nodup₂
  same := by
    cases op with
    | get key => exact h.same
    | set key value =>
      rw [CacheService.apply, CacheService.apply, set_eq, set_eq, h.enabled]
      cases c₂.enabled with
      | false => exact h.same
      | true =>
        simp only [Bool.not_true, Bool.false_eq_true, if_false]
        rw [unexpired_cons, unexpired_cons, unexpired_filter, unexpired_filter, unexpired_roomFor,
          unexpired_roomFor, h.same, h.cfg, h.ttl]
    | delete key =>
      rw [CacheService.apply, CacheService.apply, delete, delete, h.enabled]
      cases c₂.enabled with
      | false => exact h.same
      | true =>
        simp only [Bool.not_true, Bool.false_eq_true, if_false]
        rw [unexpired_filter, unexpired_filter, h.same]
    | clear => rfl
    | sweep =>
      rw [CacheService.apply, CacheService.apply, h.enabled]
      cases c₂.enabled with
      | false => exact h.same
      | true =>
        simp only [if_true, evictExpired_data, unexpired_unexpired (Int.le_refl now), h.same]

theorem LiveAgree.sweep_left (h : LiveAgree now c₁ c₂) :
    LiveAgree now (c₁.apply now .sweep) c₂ where
  cfg := by rw [cfg_apply, h.cfg]
  enabled := by rw [enabled_apply, h.enabled]
  ttl := by rw [ttl_apply, h.ttl]
  nodup₁ := keys_nodup_apply h.nodup₁
  nodup₂ := h.nodup₂
  same := by
    rw [CacheService.apply, ← h.same]
    split
    · exact unexpired_unexpired (Int.le_refl now) _
    · rfl

/-! ## Runs with and without the sweeper -/

theorem LiveAgree.run_without_sweeps : ∀ (ops : List (Int × CacheOp α)) {t : Int}
    {c₁ c₂ : CacheService α}, LiveAgree t c₁ c₂ → (∀ e ∈ ops, t ≤ e.1) →
    ops.Pairwise (fun a b => a.1 ≤ b.1) → ∀ t', t ≤ t' → (∀ e ∈ ops, e.1 ≤ t') →
      LiveAgree t' (c₁.run ops) (c₂.run (ops.filter fun e => !e.2.isSweep))
  | [], _, _, _, h, _, _, _, ht', _ => h.mono ht'
  | (now, op) :: ops, _, c₁, c₂, h, ht, hp, t', _, ht' => by
    obtain ⟨hnow, hops⟩ := List.pairwise_cons.1 hp
    have hlast : now ≤ t' := ht' _ (List.mem_cons_self _ _)
    have hrest : ∀ e ∈ ops, e.1 ≤ t' := fun e he => ht' e (List.mem_cons_of_mem _ he)
    have h' := h.mono (ht _ (List.mem_cons_self _ _))
    rw [run, List.filter_cons]
    cases hs : op.isSweep with
    | false =>
      simp only [Bool.not_false, if_true, run]
      exact run_without_sweeps ops (h'.apply op) hnow hops t' hlast hrest
    | true =>
      obtain rfl : op = .sweep := by cases op <;> simp_all [CacheOp.isSweep]
      exact run_without_sweeps ops h'.sweep_left hnow hops t' hlast hrest

/--
Along any run whose clock readings do not go back, a `Get` after the run answers as it would
after the same run with every tick of `cleanup` left out: the sweeper cannot be observed.
-/
theorem get_run_without_sweeps (c : CacheService α) (hc : (c.data.map (·.1)).Nodup)
    (ops : List (Int × CacheOp α)) (t : Int) (key : GoString)
    (hclock : (ops ++ [(t, CacheOp.get key)]).Pairwise fun a b : Int × CacheOp α => a.1 ≤ b.1) :
    (c.run ops).get t key = (c.run (ops.filter fun e => !e.2.isSweep)).get t key := by
  obtain ⟨hp, -, hlast⟩ := List.pairwise_append.1 hclock
  have ht : ∀ e ∈ ops, e.1 ≤ t := fun e he => hlast e he _ (List.mem_singleton_self _)
  cases ops with
  | nil => rfl
  | cons e ops =>
    have hfirst : ∀ e' ∈ e :: ops, e.1 ≤ e'.1 :=
      List.forall_mem_cons.2 ⟨Int.le_refl _, (List.pairwise_cons.1 hp).1⟩
    exact (LiveAgree.run_without_sweeps _ (.refl hc e.1) hfirst hp t
      (ht e (List.mem_cons_self _ _)) ht).get key

def warmCache : CacheService Bool :=
  (newCacheService localCacheConfig).run [(0, .set (lit "a") true)]

def sweepRun : List (Int × CacheOp Bool) := [(1, .sweep), (2, .delete (lit "b"))]

theorem get_run_without_sweeps_warm :
    (warmCache.data.map (·.1)).Nodup ∧
    (sweepRun ++ [(3, CacheOp.get (lit "a"))]).Pairwise
      (fun a b : Int × CacheOp Bool => a.1 ≤ b.1) ∧
    (warmCache.run sweepRun).get 3 (lit "a") =
      (warmCache.run (sweepRun.filter fun e => !e.2.isSweep)).get 3 (lit "a") :=
  ⟨keys_nodup_run _ _, by decide,
    get_run_without_sweeps warmCache (keys_nodup_run _ _) _ 3 _ (by decide)⟩

end CacheService

end Iam
