import Iam.Service.CacheRuns
import Iam.Domain.Json

/-!
# The shared cache on Redis

`redisCache` keeps the decisions on a Redis server that every replica of the
service, and every process before it, shares.  `Set` stores `json.Marshal`
of the value under the key, with the expiry option go-redis derives from the
TTL, and `Get` unmarshals what `GET` returns into a `bool`; a failed call is a
miss for `Get` and does nothing for the others.  `Clear` pages through `SCAN`
of `perm:*`, the keys `GenerateCacheKey` makes, and sends one `DEL` per key
it returns; each `DEL` can fail on its own and the loop goes on, while a
failed page ends it.  So a `Clear` deletes some of the matching keys, and
which ones is the environment's choice: each call of a run carries `reach`,
whether the call on a key reached the server.  Redis keeps expiry times in
milliseconds, and go-redis sends no expiry for a duration of zero or below.

Along every run, from any state of the server, a `Get` that hits returns what
the latest `Set` of its key that reached the server stored, within its expiry
and with no `Delete` of the key, nor `DEL` of it by a `Clear`, after it; or,
when the run never wrote the key, what the server held before (`get_run`).
-/

namespace Iam

structure RedisCacheConfig where
  ttlSeconds : Int
  deriving DecidableEq, Repr

inductive RedisExpiry where
  | persist
  | ex (seconds : Int)
  | px (millis : Int)
  | keepTTL
  deriving DecidableEq, Repr

/--
go-redis's `Set(ctx, key, value, expiration)`: `EX` in whole seconds, `PX` in
milliseconds (at least one) when the duration is under a second or not whole
seconds, `KEEPTTL` for `-1`, and no option otherwise.
-/
def redisExpiry (dur : Int) : RedisExpiry :=
  if dur > 0 then
    if dur < 1000000000 ∨ dur % 1000000000 ≠ 0 then
      .px (if dur < 1000000 then 1 else dur / 1000000)
    else .ex (dur / 1000000000)
  else if dur = -1 then .keepTTL
  else .persist

/--
The millisecond after which a key `SET` at `nowMs` has expired, if ever;
`KEEPTTL` keeps `kept`, the expiry the key had.
-/
def RedisExpiry.expireAt (x : RedisExpiry) (nowMs : Int) (kept : Option Int) : Option Int :=
  match x with
  | .persist => none
  | .ex s => some (nowMs + s * 1000)
  | .px ms => some (nowMs + ms)
  | .keepTTL => kept

structure RedisEntry where
  value : GoString
  expireAt : Option Int
  deriving DecidableEq, Repr

structure RedisServer where
  keys : List (GoString × RedisEntry)
  deriving DecidableEq, Repr

def millis (now : Int) : Int := now / 1000000

namespace RedisServer

variable (r : RedisServer)

def entry (nowMs : Int) (key : GoString) : Option RedisEntry :=
  match r.keys.lookup key with
  | some e => if e.expireAt.all (nowMs ≤ ·) then some e else none
  | none => none

def get (nowMs : Int) (key : GoString) : Option GoString := (r.entry nowMs key).map (·.value)

def set (nowMs : Int) (key value : GoString) (x : RedisExpiry) : RedisServer :=
  ⟨(key, ⟨value, x.expireAt nowMs ((r.entry nowMs key).bind (·.expireAt))⟩) ::
    r.keys.filter (·.1 != key)⟩

def del (key : GoString) : RedisServer := ⟨r.keys.filter (·.1 != key)⟩

/-- `SCAN` with `MATCH pfx*`, then a `DEL` of each key it returns, which `reach` lets through. -/
def scanDelete (pfx : GoString) (reach : GoString → Bool) : RedisServer :=
  ⟨r.keys.filter fun kv => !(pfx.isPrefixOf kv.1 && reach kv.1)⟩

end RedisServer

/-- `json.Unmarshal` into a `bool`: `null` leaves it `false`, any other non-boolean is an error. -/
def Json.Value.toBool : Json.Value → Option Bool
  | .null => some false
  | .bool b => some b
  | _ => none

def marshalBool (b : Bool) : GoString := if b then lit "true" else lit "false"

structure RedisCache where
  server : RedisServer
  ttl : Int
  deriving DecidableEq, Repr

def newRedisCache (cfg : RedisCacheConfig) (server : RedisServer) : RedisCache :=
  { server, ttl := wrap64 (cfg.ttlSeconds * 1000000000) }

namespace RedisCache

variable (c : RedisCache)

/--
`Get`, when the server is `up` or not: a missing key, a failed call or a value
that does not unmarshal is a miss.
-/
def get (now : Int) (up : Bool) (key : GoString) : Option Bool :=
  if up then (c.server.get (millis now) key).bind fun val => (Json.parse false val).bind
    Json.Value.toBool
  else none

def set (now : Int) (up : Bool) (key : GoString) (value : Bool) : RedisCache :=
  if up then
    { c with server := c.server.set (millis now) key (marshalBool value) (redisExpiry c.ttl) }
  else c

def delete (up : Bool) (key : GoString) : RedisCache :=
  if up then { c with server := c.server.del key } else c

def clear (reach : GoString → Bool) : RedisCache :=
  { c with server := c.server.scanDelete (lit "perm:") reach }

/-- One call at `now`; `reach k` is whether its call on `k` reached the server. -/
def apply (now : Int) (reach : GoString → Bool) : CacheOp Bool → RedisCache
  | .get _ | .sweep => c
  | .set key value => c.set now (reach key) key value
  | .delete key => c.delete (reach key) key
  | .clear => c.clear reach

def run : RedisCache → List (Int × (GoString → Bool) × CacheOp Bool) → RedisCache
  | c, [] => c
  | c, (now, reach, op) :: ops => run (c.apply now reach op) ops

/--
A call that reached the server and wrote `key`: a `Set` or `Delete` of it, or
a `Clear` whose `DEL` of `key`, which matches `perm:*`, went through.
-/
def writes (key : GoString) : Int × (GoString → Bool) × CacheOp Bool → Bool
  | (_, reach, .set k _) | (_, reach, .delete k) => reach k && k == key
  | (_, reach, .clear) => (lit "perm:").isPrefixOf key && reach key
  | _ => false

/-! ## What a call does to one key -/

theorem lookup_filter_keep {β : Type} (p : GoString → Bool) {key : GoString} (hp : p key = true) :
    ∀ l : List (GoString × β), (l.filter fun kv => p kv.1).lookup key = l.lookup key
  | [] => rfl
  | (k', b) :: l => by
    by_cases h : key = k'
    · subst h; simp [List.lookup_cons, hp]
    · by_cases h' : p k' <;>
        simp [List.lookup_cons, h', beq_false_of_ne h, lookup_filter_keep p hp l]

theorem lookup_filter_drop {β : Type} (p : GoString → Bool) {key : GoString} (hp : p key = false) :
    ∀ l : List (GoString × β), (l.filter fun kv => p kv.1).lookup key = none
  | [] => rfl
  | (k', b) :: l => by
    by_cases h : key = k'
    · subst h; simp [hp, lookup_filter_drop p hp l]
    · by_cases h' : p k' <;>
        simp [List.lookup_cons, h', beq_false_of_ne h, lookup_filter_drop p hp l]

theorem lookup_apply {key : GoString} (now : Int) (reach : GoString → Bool) (op : CacheOp Bool)
    (h : writes key (now, reach, op) = false) :
    (c.apply now reach op).server.keys.lookup key = c.server.keys.lookup key := by
  cases op with
  | get _ | sweep => rfl
  | set k v =>
    cases hr : reach k
    · simp [apply, set, hr]
    have hk : k ≠ key := by simpa [writes, hr] using h
    simp only [apply, set, hr, if_true, RedisServer.set, List.lookup_cons,
      beq_false_of_ne (Ne.symm hk)]
    exact lookup_filter_keep (· != k) (bne_iff_ne.2 (Ne.symm hk)) _
  | delete k =>
    cases hr : reach k
    · simp [apply, delete, hr]
    have hk : k ≠ key := by simpa [writes, hr] using h
    simp only [apply, delete, hr, if_true]
    exact lookup_filter_keep (· != k) (bne_iff_ne.2 (Ne.symm hk)) _
  | clear =>
    exact lookup_filter_keep (fun k => !((lit "perm:").isPrefixOf k && reach k))
      (by simp only [writes] at h; simp only [h, Bool.not_false]) _

theorem lookup_run {key : GoString} :
    ∀ (c : RedisCache) ops, (∀ e ∈ ops, writes key e = false) →
      (c.run ops).server.keys.lookup key = c.server.keys.lookup key
  | _, [], _ => rfl
  | c, (now, reach, op) :: ops, h =>
    (lookup_run _ ops fun e he => h e (List.mem_cons_of_mem _ he)).trans
      (lookup_apply c now reach op (h _ (List.mem_cons_self _ _)))

theorem ttl_apply (now : Int) (reach : GoString → Bool) (op : CacheOp Bool) :
    (c.apply now reach op).ttl = c.ttl := by
  cases op <;> simp only [apply, set, delete, clear] <;> (try split) <;> rfl

theorem ttl_run : ∀ (c : RedisCache) ops, (c.run ops).ttl = c.ttl
  | _, [] => rfl
  | c, (now, reach, op) :: ops => (ttl_run _ ops).trans (c.ttl_apply now reach op)

theorem run_append (c : RedisCache)
    (ops₁ ops₂ : List (Int × (GoString → Bool) × CacheOp Bool)) :
    c.run (ops₁ ++ ops₂) = (c.run ops₁).run ops₂ := by
  induction ops₁ generalizing c with
  | nil => rfl
  | cons e ops₁ ih => exact ih _

theorem get_congr {c' : RedisCache} {key : GoString}
    (h : c.server.keys.lookup key = c'.server.keys.lookup key) (t : Int) (up : Bool) :
    c.get t up key = c'.get t up key := by
  simp only [get, RedisServer.get, RedisServer.entry, h]

theorem lookup_apply_set (now : Int) {reach : GoString → Bool} {key : GoString}
    (hr : reach key = true) (v : Bool) :
    (c.apply now reach (.set key v)).server.keys.lookup key =
      some ⟨marshalBool v, (redisExpiry c.ttl).expireAt (millis now)
        ((c.server.entry (millis now) key).bind (·.expireAt))⟩ := by
  simp [apply, set, hr, RedisServer.set, List.lookup_cons]

theorem lookup_apply_of_writes {key : GoString} {now : Int} {reach : GoString → Bool}
    {op : CacheOp Bool} (h : writes key (now, reach, op) = true) :
    (∃ v, reach key = true ∧ op = .set key v) ∨
      (c.apply now reach op).server.keys.lookup key = none := by
  cases op with
  | get _ | sweep => cases h
  | set k v =>
    obtain ⟨hr, rfl⟩ : reach k = true ∧ k = key := by simpa [writes] using h
    exact .inl ⟨v, hr, rfl⟩
  | delete k =>
    obtain ⟨hr, rfl⟩ : reach k = true ∧ k = key := by simpa [writes] using h
    simp only [apply, delete, hr, if_true]
    exact .inr (lookup_filter_drop (· != k) (by simp) _)
  | clear =>
    exact .inr (lookup_filter_drop (fun k => !((lit "perm:").isPrefixOf k && reach k))
      (by simp only [writes] at h; simp only [h, Bool.not_true]) _)

theorem unmarshal_marshalBool (b : Bool) :
    (Json.parse false (marshalBool b)).bind Json.Value.toBool = some b := by
  cases b <;> rfl

theorem get_of_lookup {key : GoString} {v : Bool} {e : Option Int}
    (h : c.server.keys.lookup key = some ⟨marshalBool v, e⟩) (t : Int) :
    c.get t true key = if e.all (millis t ≤ ·) then some v else none := by
  simp only [get, RedisServer.get, RedisServer.entry, h, if_true]
  split <;> simp [unmarshal_marshalBool]

theorem get_of_lookup_none {key : GoString} (h : c.server.keys.lookup key = none) (t : Int)
    (up : Bool) : c.get t up key = none := by
  simp [get, RedisServer.get, RedisServer.entry, h]

theorem redisExpiry_ne_keepTTL (cfg : RedisCacheConfig) (server : RedisServer) :
    redisExpiry (newRedisCache cfg server).ttl ≠ .keepTTL := by
  simp only [newRedisCache, redisExpiry, wrap64]
  split
  · split <;> simp
  · split
    · omega
    · simp

theorem expireAt_of_ne_keepTTL {x : RedisExpiry} (hx : x ≠ .keepTTL) (nowMs : Int)
    (kept : Option Int) : x.expireAt nowMs kept = x.expireAt nowMs none := by
  cases x <;> first | rfl | exact absurd rfl hx

theorem exists_last_split {α : Type} (p : α → Bool) :
    ∀ l : List α, (∃ e ∈ l, p e = true) →
      ∃ pre e post, l = pre ++ e :: post ∧ p e = true ∧ ∀ x ∈ post, p x = false
  | [], ⟨_, h, _⟩ => absurd h (List.not_mem_nil _)
  | a :: l, ⟨e, he, hpe⟩ => by
    by_cases hl : ∃ e ∈ l, p e = true
    · obtain ⟨pre, e, post, rfl, he, hpost⟩ := exists_last_split p l hl
      exact ⟨a :: pre, e, post, rfl, he, hpost⟩
    · refine ⟨[], a, l, rfl, ?_, fun x hx => by simpa using fun h => hl ⟨x, hx, h⟩⟩
      rcases List.mem_cons.1 he with rfl | he
      · exact hpe
      · exact absurd ⟨e, he, hpe⟩ hl

def expiryOf (s : Int) : Option Int := (redisExpiry c.ttl).expireAt (millis s) none

theorem expiryOf_run (ops : List (Int × (GoString → Bool) × CacheOp Bool)) (s : Int) :
    (c.run ops).expiryOf s = c.expiryOf s := by
  rw [expiryOf, expiryOf, ttl_run]

theorem get_run_last {key : GoString} (pre : List (Int × (GoString → Bool) × CacheOp Bool))
    (e : Int × (GoString → Bool) × CacheOp Bool)
    {post : List (Int × (GoString → Bool) × CacheOp Bool)}
    (hpost : ∀ x ∈ post, writes key x = false) (t : Int) (up : Bool) :
    (c.run (pre ++ e :: post)).get t up key = ((c.run pre).apply e.1 e.2.1 e.2.2).get t up key := by
  rw [run_append, run]
  exact get_congr _ (lookup_run _ post hpost) t up

theorem get_apply_set (hx : redisExpiry c.ttl ≠ .keepTTL) (s t : Int) {reach : GoString → Bool}
    {key : GoString} (hr : reach key = true) (v : Bool) :
    (c.apply s reach (.set key v)).get t true key =
      if (c.expiryOf s).all (millis t ≤ ·) then some v else none := by
  rw [get_of_lookup _ (lookup_apply_set _ s hr v), expireAt_of_ne_keepTTL hx]
  rfl

/--
Along every run of the shared cache from any state of the server, whichever
calls and `DEL`s of a `Clear` fail, a `Get` at `t` that reaches the server
hits with `v` exactly when the latest call that reached the server and wrote
the key was a `Set` of `v`, at `s`, whose expiry is not past at `t`; or when
no call of the run wrote the key, and the server already held `v` for it.
-/
theorem get_run (cfg : RedisCacheConfig) (server : RedisServer)
    (ops : List (Int × (GoString → Bool) × CacheOp Bool)) (t : Int) (key : GoString) (v : Bool) :
    ((newRedisCache cfg server).run ops).get t true key = some v ↔
      (∃ pre s reach post, ops = pre ++ (s, reach, .set key v) :: post ∧ reach key = true ∧
        (∀ e ∈ post, writes key e = false) ∧
        ((newRedisCache cfg server).expiryOf s).all (millis t ≤ ·)) ∨
      ((∀ e ∈ ops, writes key e = false) ∧ (newRedisCache cfg server).get t true key = some v) := by
  have hx := redisExpiry_ne_keepTTL cfg server
  constructor
  · intro h
    by_cases hw : ∃ e ∈ ops, writes key e = true
    · obtain ⟨pre, ⟨s, reach, op⟩, post, rfl, he, hpost⟩ := exists_last_split _ ops hw
      rw [get_run_last _ pre _ hpost] at h
      rcases lookup_apply_of_writes _ he with ⟨v', hr, rfl⟩ | hnone
      · rw [get_apply_set _ (by rwa [ttl_run]) _ _ hr, expiryOf_run] at h
        split at h
        · next halive =>
          cases h
          exact .inl ⟨pre, s, reach, post, rfl, hr, hpost, halive⟩
        · cases h
      · rw [get_of_lookup_none _ hnone] at h
        cases h
    · have hw' : ∀ e ∈ ops, writes key e = false := fun e he => by
        simpa using fun h' => hw ⟨e, he, h'⟩
      exact .inr ⟨hw', (get_congr _ (lookup_run _ ops hw') t true).symm.trans h⟩
  · rintro (⟨pre, s, reach, post, rfl, hr, hpost, halive⟩ | ⟨hw, h⟩)
    · rw [get_run_last _ pre _ hpost, get_apply_set _ (by rwa [ttl_run]) _ _ hr, expiryOf_run]
      exact if_pos halive
    · rwa [get_congr _ (lookup_run _ ops hw)]

end RedisCache

end Iam
