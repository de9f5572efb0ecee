import Mathlib.Data.List.Forall2
import Iam.Runtime.Reach

/-!
# Interleaved runs

`runSchedule` steps one thread at a time, so what a run keeps follows from
what one step keeps (`runSchedule_inv`).  What a thread may still do is a
predicate of the rest of its program: `Prog.Sat Adm P Q x` says that every
call `x` makes satisfies `P` and that, as long as every reply it gets is one
`Adm` admits, it goes on to return a value satisfying `Q`.  A step replaces
one thread by its continuation, so a relation between the requests and
their threads is kept when it holds of that continuation (`forall₂_set`).
Run alone, a thread keeps a store invariant its calls keep given admissible
replies (`Prog.Sat.exec_inv`), and returns a value satisfying `Q` when every
reply is admissible (`Prog.Sat.exec_post`).
-/

namespace Iam

/-! ## Steps and runs -/

section Runs

variable {env : Env} {w w' : World} {ts ts' : Threads}

theorem stepThread_eq_some {i : Nat} (h : stepThread env w ts i = some (w', ts')) :
    ∃ c k, ts.get? i = some (.call c k) ∧ w' = (w.perform env c).2 ∧
      ts' = ts.set i (k (w.perform env c).1) := by
  unfold stepThread at h
  split at h
  · next c k hi =>
    rcases hp : w.perform env c with ⟨r, w₁⟩
    simp only [hp, Option.some.injEq, Prod.mk.injEq] at h
    exact ⟨c, k, hi, by rw [hp, h.1], by rw [hp, h.2]⟩
  · cases h

theorem runSchedule_inv (Inv : World → Threads → Prop)
    (hstep : ∀ w ts i w' ts', Inv w ts → stepThread env w ts i = some (w', ts') → Inv w' ts') :
    ∀ sched {w ts w' ts'}, Inv w ts → runSchedule env w ts sched = some (w', ts') → Inv w' ts'
  | [], _, _, _, _, hi, h => by cases h; exact hi
  | i :: rest, w, ts, _, _, hi, h => by
    simp only [runSchedule] at h
    split at h
    · next w₁ ts₁ hs => exact runSchedule_inv Inv hstep rest (hstep _ _ _ _ _ hi hs) h
    · cases h

theorem runSchedule_tick : ∀ (sched : List Nat) {w w' : World} {ts ts' : Threads},
    runSchedule env w ts sched = some (w', ts') → w'.tick = w.tick + sched.length
  | [], _, _, _, _, h => by cases h; rfl
  | i :: rest, w, ts, _, _, h => by
    simp only [runSchedule] at h
    split at h
    · next w₁ ts₁ hs =>
      obtain ⟨c, k, -, rfl, -⟩ := stepThread_eq_some hs
      rw [runSchedule_tick rest h, World.perform_tick, List.length_cons]
      omega
    · cases h

theorem runSchedule_nil {sched : List Nat} (h : runSchedule env w [] sched = some (w', ts')) :
    w' = w := by
  cases sched with
  | nil => cases h; rfl
  | cons i rest => simp [runSchedule, stepThread] at h

theorem eq_map_pure_of_mapM_result {rs : List Response} :
    ∀ {ts : Threads}, ts.mapM Prog.result? = some rs → ts = rs.map Prog.pure
  | [], h => by cases h; rfl
  | t :: ts, h => by
    simp only [List.mapM_cons, Option.bind_eq_bind, Option.bind_eq_some, Option.pure_def,
      Option.some.injEq] at h
    obtain ⟨r, hr, rs', hrs, rfl⟩ := h
    cases t with
    | pure a => cases hr; simp [eq_map_pure_of_mapM_result hrs]
    | call c k => cases hr

end Runs

/-! ## A relation of requests and threads -/

section Forall₂

variable {α β : Type} {R : α → β → Prop}

theorem forall₂_get? : ∀ {l₁ : List α} {l₂ : List β} {i : Nat} {b : β},
    List.Forall₂ R l₁ l₂ → l₂.get? i = some b → ∃ a, l₁.get? i = some a ∧ R a b
  | _, _, 0, _, .cons hab _, h => by cases h; exact ⟨_, rfl, hab⟩
  | _, _, _ + 1, _, .cons _ hl, h => let ⟨a, ha, hab⟩ := forall₂_get? hl h; ⟨a, ha, hab⟩

theorem forall₂_set : ∀ {l₁ : List α} {l₂ : List β} {i : Nat} {b : β},
    List.Forall₂ R l₁ l₂ → (∀ a, l₁.get? i = some a → R a b) → List.Forall₂ R l₁ (l₂.set i b)
  | _, _, _, _, .nil, _ => .nil
  | _, _, 0, _, .cons _ hl, h => .cons (h _ rfl) hl
  | _, _, _ + 1, _, .cons hab hl, h => .cons hab (forall₂_set hl h)

end Forall₂

/-! ## Threads with admissible replies -/

namespace Prog

variable {α β : Type} {Adm : (c : Call) → c.Reply → Prop} {P : Call → Prop} {Q : β → Prop}

def Sat (Adm : (c : Call) → c.Reply → Prop) (P : Call → Prop) (Q : α → Prop) : Prog α → Prop
  | .pure a => Q a
  | .call c k => P c ∧ ∀ r, Adm c r → Sat Adm P Q (k r)

@[simp] theorem sat_pure (b : β) : Sat Adm P Q (pure b) ↔ Q b := Iff.rfl

@[simp] theorem sat_call (c : Call) (k : c.Reply → Prog β) :
    Sat Adm P Q (call c k) ↔ P c ∧ ∀ r, Adm c r → Sat Adm P Q (k r) := Iff.rfl

theorem Sat.bind {Q' : α → Prop} {x : Prog α} {f : α → Prog β} (hx : Sat Adm P Q' x)
    (hf : ∀ a, Q' a → Sat Adm P Q (f a)) : Sat Adm P Q (x >>= f) := by
  induction x with
  | pure a => exact hf a hx
  | call c k ih => exact ⟨hx.1, fun r hr => ih r (hx.2 r hr)⟩

@[simp] theorem sat_map_iff (f : α → β) {x : Prog α} :
    Sat Adm P Q (f <$> x) ↔ Sat Adm P (Q ∘ f) x := by
  induction x with
  | pure a => exact Iff.rfl
  | call c k ih => exact and_congr Iff.rfl (forall_congr' fun r => imp_congr_right fun _ => ih r)

theorem sat_call_forallReply (c : Call) (k : c.Reply → Prog β) :
    Sat Adm P Q (call c k) ↔ P c ∧ c.ForallReply fun r => Adm c r → Sat Adm P Q (k r) := by
  rw [Call.forallReply_iff]; rfl

theorem sat_ite {p : Prop} [Decidable p] {x y : Prog β} :
    Sat Adm P Q (if p then x else y) ↔ (p → Sat Adm P Q x) ∧ (¬p → Sat Adm P Q y) := by
  split <;> simp_all

theorem Sat.imp {Adm' : (c : Call) → c.Reply → Prop} {P' : Call → Prop}
    (hP : ∀ c, P c → P' c) (hA : ∀ c r, Adm' c r → Adm c r) :
    ∀ {x : Prog β}, Sat Adm P Q x → Sat Adm' P' Q x
  | .pure _, hx => hx
  | .call c _, hx => ⟨hP c hx.1, fun r hr => Sat.imp hP hA (hx.2 r (hA c r hr))⟩

theorem Only.sat {x : Prog α} (hx : Only P x) : Sat Adm P (fun _ => True) x := by
  induction x with
  | pure a => trivial
  | call c k ih => exact ⟨hx.1, fun r _ => ih r (hx.2 r)⟩

/-! ## Runs of one thread -/

variable {env : Env}

theorem Sat.exec_inv {Inv : Store → Prop}
    (hP : ∀ (w : World) c, P c → Inv w.store → Inv (w.perform env c).2.store)
    (hA : ∀ (w : World) c, Inv w.store → Adm c (w.perform env c).1) :
    ∀ {x : Prog β} {w : World}, Sat Adm P Q x → Inv w.store → Inv (x.exec env w).2.store
  | .pure _, _, _, hs => hs
  | .call c k, w, hx, hs => by
    rw [Prog.exec_call]
    exact Sat.exec_inv hP hA (hx.2 _ (hA w c hs)) (hP w c hx.1 hs)

theorem Sat.exec_post_inv {Inv : World → Prop}
    (hP : ∀ (w : World) c, P c → Inv w → Inv (w.perform env c).2)
    (hA : ∀ (w : World) c, Inv w → Adm c (w.perform env c).1) :
    ∀ {x : Prog β} {w : World}, Sat Adm P Q x → Inv w → Q (x.exec env w).1
  | .pure _, _, hx, _ => hx
  | .call c k, w, hx, hw => by
    rw [Prog.exec_call]
    exact Sat.exec_post_inv hP hA (hx.2 _ (hA w c hw)) (hP w c hx.1 hw)

theorem Sat.exec_post (hA : ∀ (w : World) c, Adm c (w.perform env c).1) :
    ∀ {x : Prog β} {w : World}, Sat Adm P Q x → Q (x.exec env w).1
  | .pure _, _, hx => hx
  | .call c k, w, hx => by
    rw [Prog.exec_call]
    exact Sat.exec_post hA (hx.2 _ (hA w c))

end Prog

end Iam
