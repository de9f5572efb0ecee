import Iam.Service.Cache

/-!
# Runs of the local cache

A run of a `cacheService` is a list of calls, each made at a clock reading:
`Get`, `Set`, `Delete`, `Clear`, and one sweep of the `cleanup` goroutine.
Three facts hold along every run from `NewCacheService`.  Every entry of the
map is the one the latest `Set` of its key made, and no call since has written
that key (`recorded_run`); so a hit of `Get` names that `Set`, within its TTL.
The map never holds more than `MaxSize` entries (`length_run_le`), and it stays
a map: no key is held twice (`keys_nodup_run`).
-/

namespace Iam

variable {α : Type}

inductive CacheOp (α : Type) where
  | get (key : GoString)
  | set (key : GoString) (value : α)
  | delete (key : GoString)
  | clear
  | sweep
  deriving DecidableEq, Repr

/-- `Set` or `Delete` of `key`, or `Clear`: the calls after which an earlier `Set` of `key` is
no longer what a `Get` of it may see. -/
def CacheOp.writes (key : GoString) : CacheOp α → Bool
  | .set k _ | .delete k => k == key
  | .clear => true
  | .get _ | .sweep => false

namespace CacheService

def apply (c : CacheService α) (now : Int) : CacheOp α → CacheService α
  | .get _ => c
  | .set key value => c.set now key value
  | .delete key => c.delete key
  | .clear => c.clear
  | .sweep => if c.enabled then c.evictExpired now else c

def run : CacheService α → List (Int × CacheOp α) → CacheService α
  | c, [] => c
  | c, (now, op) :: ops => run (c.apply now op) ops

theorem run_append (c : CacheService α) (ops₁ ops₂ : List (Int × CacheOp α)) :
    c.run (ops₁ ++ ops₂) = (c.run ops₁).run ops₂ := by
  induction ops₁ generalizing c with
  | nil => rfl
  | cons e ops₁ ih => exact ih _

theorem run_keeps {β : Type} (f : CacheService α → β)
    (hf : ∀ c now op, f (c.apply now op) = f c) :
    ∀ (c : CacheService α) ops, f (c.run ops) = f c
  | _, [] => rfl
  | c, (now, op) :: ops => (run_keeps f hf _ ops).trans (hf c now op)

theorem run_inv (P : CacheService α → Prop) (hP : ∀ c now op, P c → P (c.apply now op)) :
    ∀ (c : CacheService α) ops, P c → P (c.run ops)
  | _, [], h => h
  | c, (now, op) :: ops, h => run_inv P hP _ ops (hP c now op h)

variable {c : CacheService α} {now : Int} {op : CacheOp α}

@[simp] theorem cfg_apply : (c.apply now op).cfg = c.cfg := by
  cases op <;> simp only [apply, set_eq, delete, clear, evictExpired] <;> split <;> rfl

@[simp] theorem enabled_apply : (c.apply now op).enabled = c.enabled := by
  cases op <;> simp only [apply, set_eq, delete, clear, evictExpired] <;> split <;> rfl

@[simp] theorem ttl_apply : (c.apply now op).ttl = c.ttl := by
  cases op <;> simp only [apply, set_eq, delete, clear, evictExpired] <;> split <;> rfl

theorem mem_apply_data (hc : c.enabled = true) {kv : GoString × CacheEntry α}
    (h : kv ∈ (c.apply now op).data) :
    (op = .set kv.1 kv.2.value ∧ kv.2.expiration = now + c.ttl) ∨
      (kv ∈ c.data ∧ op.writes kv.1 = false) := by
  cases op with
  | get key => exact .inr ⟨h, rfl⟩
  | set key value =>
    simp only [apply, set_eq, hc, Bool.not_true, Bool.false_eq_true, if_false, List.mem_cons,
      List.mem_filter] at h
    rcases h with rfl | ⟨h, hk⟩
    · exact .inl ⟨rfl, rfl⟩
    · exact .inr ⟨(c.roomFor_sublist now).subset h,
        beq_eq_false_iff_ne.2 (bne_iff_ne.1 hk).symm⟩
  | delete key =>
    simp only [apply, delete, hc, Bool.not_true, Bool.false_eq_true, if_false,
      List.mem_filter] at h
    exact .inr ⟨h.1, beq_eq_false_iff_ne.2 (bne_iff_ne.1 h.2).symm⟩
  | clear => simp [apply, clear] at h
  | sweep =>
    simp only [apply, evictExpired, hc, if_true, List.mem_filter] at h
    exact .inr ⟨h.1, rfl⟩

/-! ## What a `Get` may see -/

/-- Every entry is the one the latest `Set` of its key in `ops` made, at a reading `s` it
expires `ttl` after, and no call since has written the key. -/
def Recorded (ops : List (Int × CacheOp α)) (c : CacheService α) : Prop :=
  ∀ kv ∈ c.data, ∃ pre s post, ops = pre ++ (s, .set kv.1 kv.2.value) :: post ∧
    (∀ e ∈ post, e.2.writes kv.1 = false) ∧ kv.2.expiration = s + c.ttl

theorem recorded_apply {ops : List (Int × CacheOp α)} (hc : c.enabled = true)
    (h : c.Recorded ops) : (c.apply now op).Recorded (ops ++ [(now, op)]) := by
  intro kv hkv
  rw [ttl_apply]
  rcases mem_apply_data hc hkv with ⟨hop, he⟩ | ⟨hkv, hw⟩
  · exact ⟨ops, now, [], by rw [hop], by simp, he⟩
  · obtain ⟨pre, s, post, rfl, hpost, he⟩ := h kv hkv
    exact ⟨pre, s, post ++ [(now, op)], by simp,
      List.forall_mem_append.2 ⟨hpost, List.forall_mem_singleton.2 hw⟩, he⟩

theorem recorded_run (hist : List (Int × CacheOp α)) :
    ∀ (c : CacheService α) ops, c.enabled = true → c.Recorded hist →
      (c.run ops).Recorded (hist ++ ops)
  | _, [], _, h => by simpa using h
  | c, (now, op) :: ops, hc, h => by
    simpa using recorded_run (hist ++ [(now, op)]) _ ops (by rwa [enabled_apply])
      (recorded_apply hc h)

theorem run_get_skip (c : CacheService α) (pre post : List (Int × CacheOp α)) (t : Int)
    (key : GoString) : c.run (pre ++ (t, .get key) :: post) = c.run (pre ++ post) := by
  rw [run_append, run_append]
  rfl

def localCacheConfig : CacheConfig := ⟨lit "memory", true, 300, 10000, 10⟩

/-- A hit of `Get` at `t` names the latest `Set` of its key, made at `s` with `t ≤ s + ttl`,
after which no `Delete` of the key and no `Clear` happened; and `Get` leaves the map alone. -/
theorem get_hit_latest_set (cfg : CacheConfig) (hcfg : cfg.enabled = true) :
    (∀ (c : CacheService α) pre post t key,
      c.run (pre ++ (t, .get key) :: post) = c.run (pre ++ post)) ∧
    ∀ ops t key (v : α), ((newCacheService cfg).run ops).get t key = some v →
      ∃ pre s post, ops = pre ++ (s, .set key v) :: post ∧
        (∀ e ∈ post, e.2.writes key = false) ∧
        t ≤ s + (newCacheService cfg : CacheService α).ttl := by
  refine ⟨run_get_skip, fun ops t key v h => ?_⟩
  obtain ⟨e, he, rfl, ht⟩ := get_eq_some h
  obtain ⟨pre, s, post, hops, hpost, hs⟩ :=
    recorded_run [] (newCacheService cfg) ops hcfg (fun _ h => by cases h) _ he
  refine ⟨pre, s, post, hops, hpost, ?_⟩
  calc t ≤ e.expiration := ht
    _ = s + ((newCacheService cfg).run ops).ttl := hs
    _ = s + (newCacheService cfg).ttl := by rw [run_keeps ttl (fun _ _ _ => ttl_apply)]

theorem get_hit_latest_set_local :
    ∃ pre s post, [(0, .set (lit "a") false), (1, .set (lit "a") true), (2, .sweep),
        (3, .delete (lit "b"))] = pre ++ (s, CacheOp.set (lit "a") true) :: post ∧
      (∀ e ∈ post, e.2.writes (lit "a") = false) ∧
      4 ≤ s + (newCacheService localCacheConfig : CacheService Bool).ttl :=
  (get_hit_latest_set localCacheConfig rfl).2 _ 4 (lit "a") true (by decide)

/-! ## Size and keys -/

theorem length_apply_le (hmax : 1 ≤ c.cfg.maxSize) (h : (c.data.length : Int) ≤ c.cfg.maxSize) :
    ((c.apply now op).data.length : Int) ≤ c.cfg.maxSize := by
  have hle : ∀ l : List (GoString × CacheEntry α), l.Sublist c.data →
      (l.length : Int) ≤ c.cfg.maxSize := fun l hl => Int.le_trans (Int.ofNat_le.2 hl.length_le) h
  cases op with
  | get key => exact h
  | set key value =>
    rw [apply, set_eq]
    split
    · exact h
    have := c.length_roomFor_lt now hmax
    have : ((c.roomFor now).filter (·.1 != key)).length ≤ (c.roomFor now).length :=
      List.length_filter_le _ _
    simp only [List.length_cons, Nat.cast_add, Nat.cast_one]
    omega
  | delete key =>
    simp only [apply, delete]
    split
    · exact h
    · exact hle _ (List.filter_sublist _)
  | clear => simp only [apply, clear, List.length_nil, Nat.cast_zero]; omega
  | sweep =>
    simp only [apply, evictExpired]
    split
    · exact hle _ (List.filter_sublist _)
    · exact h

/-- The local cache never holds more than `MaxSize` entries, whatever the calls and readings. -/
theorem length_run_le (cfg : CacheConfig) (hmax : 1 ≤ cfg.maxSize)
    (ops : List (Int × CacheOp α)) :
    (((newCacheService cfg : CacheService α).run ops).data.length : Int) ≤ cfg.maxSize := by
  refine (run_inv (fun c => c.cfg = cfg ∧ (c.data.length : Int) ≤ cfg.maxSize) ?_ _ ops
    ⟨rfl, by simp [newCacheService]; omega⟩).2
  rintro c now op ⟨rfl, h⟩
  exact ⟨cfg_apply, length_apply_le hmax h⟩

theorem length_run_le_local : 1 ≤ localCacheConfig.maxSize ∧
    ∀ ops : List (Int × CacheOp Bool),
      (((newCacheService localCacheConfig : CacheService Bool).run ops).data.length : Int) ≤
        localCacheConfig.maxSize :=
  ⟨by decide, length_run_le localCacheConfig (by decide)⟩

theorem keys_nodup_apply (h : (c.data.map (·.1)).Nodup) :
    ((c.apply now op).data.map (·.1)).Nodup := by
  cases op with
  | get key => exact h
  | set key value =>
    rw [apply, set_eq]
    split
    · exact h
    refine List.nodup_cons.2 ⟨by simp, ?_⟩
    exact (((List.filter_sublist _).trans (c.roomFor_sublist now)).map _).nodup h
  | delete key =>
    simp only [apply, delete]
    split
    · exact h
    · exact ((List.filter_sublist _).map _).nodup h
  | clear => exact List.nodup_nil
  | sweep =>
    simp only [apply, evictExpired]
    split
    · exact ((List.filter_sublist _).map _).nodup h
    · exact h

theorem keys_nodup_run (cfg : CacheConfig) (ops : List (Int × CacheOp α)) :
    (((newCacheService cfg : CacheService α).run ops).data.map (·.1)).Nodup :=
  run_inv (fun c : CacheService α => (c.data.map (·.1)).Nodup) (fun _ _ _ => keys_nodup_apply)
    (newCacheService cfg) ops List.nodup_nil

end CacheService

end Iam
