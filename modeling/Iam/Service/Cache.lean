import Iam.Domain.Basic

/-!
# The decision cache

`cacheService` is the process-local cache: a `map[string]cacheEntry` whose
entries carry an absolute expiration time.  A reading of `time.Now()` is an
integer number of nanoseconds, and each cache call reads the clock once.
`noopCache` is the stateless variant that `NewCache` picks by default.
-/

namespace Iam

structure CacheConfig where
  type : GoString
  enabled : Bool
  ttlSeconds : Int
  maxSize : Int
  cleanupMinutes : Int
  deriving DecidableEq, Repr

structure CacheEntry (α : Type) where
  value : α
  expiration : Int
  deriving DecidableEq, Repr

structure CacheService (α : Type) where
  cfg : CacheConfig
  data : List (GoString × CacheEntry α)
  enabled : Bool
  ttl : Int
  deriving DecidableEq, Repr

variable {α : Type}

/-- Two's-complement wrap-around of Go's `int64` arithmetic. -/
def wrap64 (x : Int) : Int := (x + 2 ^ 63) % 2 ^ 64 - 2 ^ 63

/-- `NewCacheService`: `ttl` is `time.Duration(cfg.TTLSeconds) * time.Second`. -/
def newCacheService (cfg : CacheConfig) : CacheService α :=
  { cfg, data := [], enabled := cfg.enabled, ttl := wrap64 (cfg.ttlSeconds * 1000000000) }

namespace CacheService

def get (c : CacheService α) (now : Int) (key : GoString) : Option α :=
  if !c.enabled then none
  else match c.data.lookup key with
    | none => none
    | some entry => if now > entry.expiration then none else some entry.value

def evictExpired (c : CacheService α) (now : Int) : CacheService α :=
  { c with data := c.data.filter fun kv => !(now > kv.2.expiration) }

/-- `Set`: when the map is at `MaxSize`, sweep, and if still full discard it. -/
def set (c : CacheService α) (now : Int) (key : GoString) (value : α) : CacheService α :=
  if !c.enabled then c
  else
    let c := if c.cfg.maxSize ≤ c.data.length then
        let c := c.evictExpired now
        if c.cfg.maxSize ≤ c.data.length then { c with data := [] } else c
      else c
    { c with data := (key, ⟨value, now + c.ttl⟩) :: c.data.filter (·.1 != key) }

def delete (c : CacheService α) (key : GoString) : CacheService α :=
  if !c.enabled then c else { c with data := c.data.filter (·.1 != key) }

/-- `Clear` does not look at `enabled`. -/
def clear (c : CacheService α) : CacheService α := { c with data := [] }

/-! ### What one call does to the map -/

theorem get_eq_some {c : CacheService α} {now : Int} {key : GoString} {v : α}
    (h : c.get now key = some v) :
    ∃ e, (key, e) ∈ c.data ∧ e.value = v ∧ now ≤ e.expiration := by
  unfold get at h
  split at h
  · cases h
  split at h
  · cases h
  next e he =>
    split at h
    · cases h
    obtain ⟨l₁, l₂, hl, -⟩ := List.lookup_eq_some_iff.1 he
    exact ⟨e, by simp [hl], Option.some.inj h, by omega⟩

def roomFor (c : CacheService α) (now : Int) : List (GoString × CacheEntry α) :=
  if c.cfg.maxSize ≤ c.data.length then
    if c.cfg.maxSize ≤ (c.evictExpired now).data.length then [] else (c.evictExpired now).data
  else c.data

theorem set_eq (c : CacheService α) (now : Int) (key : GoString) (value : α) :
    c.set now key value = if !c.enabled then c else
      { c with
        data := (key, ⟨value, now + c.ttl⟩) :: (c.roomFor now).filter (·.1 != key) } := by
  unfold set roomFor evictExpired
  dsimp only
  split_ifs <;> rfl

theorem roomFor_sublist (c : CacheService α) (now : Int) : (c.roomFor now).Sublist c.data := by
  unfold roomFor evictExpired
  split_ifs
  · exact List.nil_sublist _
  · exact List.filter_sublist _
  · exact List.Sublist.refl _

theorem length_roomFor_lt (c : CacheService α) (now : Int) (h : 1 ≤ c.cfg.maxSize) :
    ((c.roomFor now).length : Int) < c.cfg.maxSize := by
  unfold roomFor
  split_ifs
  · simpa using h
  all_goals omega

end CacheService

inductive Cache where
  | noop
  | memory (c : CacheService Bool)
  deriving DecidableEq, Repr

namespace Cache

def get : Cache → Int → GoString → Option Bool
  | noop, _, _ => none
  | memory c, now, key => c.get now key

def set : Cache → Int → GoString → Bool → Cache
  | noop, _, _, _ => noop
  | memory c, now, key, value => memory (c.set now key value)

def delete : Cache → GoString → Cache
  | noop, _ => noop
  | memory c, key => memory (c.delete key)

def clear : Cache → Cache
  | noop => noop
  | memory c => memory c.clear

def sweep : Cache → Int → Cache
  | noop, _ => noop
  | memory c, now => memory (if c.enabled then c.evictExpired now else c)

end Cache

/-- `GenerateCacheKey`: `fmt.Sprintf("perm:%s:%s:%s", principal, resourceID, permission)`. -/
def generateCacheKey (principal resourceID permission : GoString) : GoString :=
  lit "perm:" ++ principal ++ lit ":" ++ resourceID ++ lit ":" ++ permission

end Iam
