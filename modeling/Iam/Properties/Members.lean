import Iam.Runtime.Schedule
import Iam.Repository.Writes
import Iam.Domain.JsonRoundTrip

/-!
# Members of a binding

`Binding.HasMember` decodes the stored `members` with `encoding/json` and
compares the principal byte for byte.  The queries by principal splice the
principal unescaped into the text `["…"]` and let PostgreSQL's `jsonb`
containment decide, which decodes the escapes the principal itself holds:
a principal that spells another one with escapes is listed with that one's
bindings, and a principal with a `"` fails the query.

`CreateBinding` stores `json.Marshal(members)`, which replaces every byte that
is not part of well-formed UTF-8 by U+FFFD.  On well-formed members the
stored binding has exactly the members it was given
(`createBinding_hasMember`); a member with such a byte is lost.  A member with
a NUL byte is refused outright: the column does not take the escape `\u0000`
that `Marshal` writes for it, and `CreateBinding` never succeeds.
-/

namespace Iam

open Prog

/-! ## Members after `CreateBinding` -/

theorem createBindingIn_members {env : Env} {w : World} {p : Policy} {roleID : UUID}
    {members : List GoString} {b : Binding}
    (h : ((createBindingIn p roleID members).exec env w).1 = .ok (some b)) :
    b.members = Json.marshalStrings members := by
  simp only [createBindingIn, BindingRepository.create, Binding.beforeCreate, freshID, newUUID,
    BindingRepository.getByID, cacheClear, lift, if_pos, call_bind, Prog.pure_eq, pure_bind,
    Prog.forOption, Prog.exec_call, World.perform] at h
  rcases World.write_cases env w.next (w.next.store.bindingCreate _) with
    ⟨h1, h2⟩ | ⟨⟨e, h1⟩, -⟩
  · rw [h1] at h
    rw [Store.bindingCreate_mk_none] at h2
    obtain ⟨b', hb', hm⟩ := Store.bindingGetByID_of_insert h2
    simp only [Prog.exec_call, Prog.exec_pure, World.perform, World.next_store] at h
    generalize hr : World.read env _ _ = r at h
    rcases r with e | r
    · cases h
    · rw [World.read_eq_ok env _ hr] at h
      cases hb'.symm.trans (Except.ok.inj h)
      exact hm
  · rw [h1] at h
    cases h

theorem createBinding_members {env : Env} {w : World} {r roleID : UUID} {members : List GoString}
    {condition : Option Condition} {b : Binding}
    (h : ((createBinding r roleID members condition).exec env w).1 = .ok (some b)) :
    b.members = Json.marshalStrings members := by
  simp only [createBinding, PolicyRepository.getByResourceID, lift, call_bind, pure_bind,
    Prog.exec_call, World.perform] at h
  generalize World.read env w _ = rd at h
  rcases rd with e | _ | policy
  · cases h
  · rw [Prog.exec_bind] at h
    generalize (PolicyRepository.create _).exec env _ = z at h
    obtain ⟨⟨policy, _ | _⟩, w'⟩ := z
    · cases h
    · exact createBindingIn_members h
  · exact createBindingIn_members h

/--
When every member is well-formed UTF-8, the binding `CreateBinding` returns
has as members exactly the principals it was given.
-/
theorem createBinding_hasMember {env : Env} {w : World} {r roleID : UUID}
    {members : List GoString} {b : Binding} (hvalid : ∀ m ∈ members, Json.utf8Valid m = true)
    (h : ((createBinding r roleID members none).exec env w).1 = .ok (some b)) (p : GoString) :
    b.hasMember p = true ↔ p ∈ members := by
  rw [Binding.hasMember_iff, Binding.getMembers, createBinding_members h,
    Json.unmarshalStrings_marshalStrings hvalid]
  simp

def viewerSetup : List Request :=
  [.createResource (lit "doc") (lit "d") none [], .createRole (lit "viewer") [] [] []]

def viewerWorld : World := (runRequests Env.reliable viewerSetup (World.init .noop)).2

theorem createBinding_hasMember_alice :
    (∀ m ∈ [lit "alice"], Json.utf8Valid m = true) ∧
    ∃ b, ((createBinding 1 4 [lit "alice"] none).exec Env.reliable viewerWorld).1 =
        .ok (some b) ∧
      (b.hasMember (lit "bob") = true ↔ lit "bob" ∈ [lit "alice"]) :=
  ⟨by decide, _, rfl,
    @createBinding_hasMember Env.reliable viewerWorld 1 4 [lit "alice"] _ (by decide) rfl _⟩

/--
`CreateBinding(1, 4, [[0xFF]], nil)` succeeds; the binding it returns reads
its members back as `[U+FFFD]` and does not have the member `[0xFF]`.
-/
theorem createBinding_coerces_invalid_member :
    (((createBinding 1 4 [[255]] none).exec Env.reliable viewerWorld).1.toOption.bind id).map
      (fun b => (b.getMembers, b.hasMember [255])) = some (some [Json.runeError], false) := by
  decide

/-! ## Queries by principal -/

def memberRecord : BindingRecord := ⟨1, 2, 4, Json.marshalStrings [lit "a"]⟩

def memberStore : Store := { Store.empty with bindings := [⟨memberRecord, false⟩] }

def escapedA : GoString := lit "\\u0061"

/--
Both queries by principal return the binding of `a` for the principal
`\u0061`, which is not one of its members; for the principal `"` the list
query fails.
-/
theorem principal_queries_decode_escapes :
    (memberStore.bindingListByPrincipal escapedA 0 0).toOption =
      some [memberStore.loadBinding memberRecord] ∧
    (memberStore.bindingGetByPolicyAndPrincipal 2 escapedA).toOption =
      some [memberStore.loadBinding memberRecord] ∧
    (memberStore.loadBinding memberRecord).hasMember escapedA = false ∧
    (memberStore.bindingListByPrincipal (lit "\"") 0 0).toBool = false := by
  decide

/-! ## A NUL byte in a member -/

def Call.RefusesMembers : (c : Call) → c.Reply → Prop
  | .bindingCreate b, r => Json.jsonbAccepts b.members = false → r.toBool = false
  | _, _ => True

theorem World.perform_refusesMembers (env : Env) (w : World) (c : Call) :
    c.RefusesMembers (w.perform env c).1 := by
  cases c
  case bindingCreate b =>
    intro hb
    rcases World.write_cases env w (w.store.bindingCreate b) with ⟨-, h2⟩ | ⟨⟨e, h1⟩, -⟩
    · obtain ⟨_, _, -, -, h3⟩ := Store.bindingCreate_eq_ok.1 h2
      obtain ⟨-, -, -, hj, -⟩ := Store.bindingInsert_eq_ok.1 h3
      exact absurd hj (by simp [Binding.setupReferences, hb])
    · show (w.write env _).1.toBool = false
      rw [h1]
      rfl
  all_goals trivial

theorem sat_createBinding_refused (r roleID : UUID) (members : List GoString)
    (c : Option Condition) (hbad : Json.jsonbAccepts (Json.marshalStrings members) = false) :
    Sat Call.RefusesMembers (fun _ => True) (fun res => res.toBool = false)
      (createBinding r roleID members c) := by
  have hin : ∀ p, Sat Call.RefusesMembers (fun _ => True)
      (fun res : Except GoError (Option Binding) => res.toBool = false)
      (createBindingIn p roleID members) := fun p => by
    simp [-sat_call, sat_call_forallReply, createBindingIn, BindingRepository.create,
      Binding.beforeCreate, freshID, newUUID, lift, Prog.forOption, Call.ForallReply,
      Call.RefusesMembers, hbad]
  simp [-sat_call, sat_call_forallReply, createBinding, PolicyRepository.getByResourceID,
    PolicyRepository.create, Policy.beforeCreate, newPolicy, freshID, newUUID, lift,
    Call.ForallReply, Call.RefusesMembers, hin]

/--
`CreateBinding` with a member that has a NUL byte fails, whatever the
environment and the world it runs in.
-/
theorem createBinding_nul_member_fails (env : Env) (w : World) (r roleID : UUID)
    (members : List GoString) (c : Option Condition) (hnul : ∃ m ∈ members, (0 : UInt8) ∈ m) :
    ((createBinding r roleID members c).exec env w).1.toBool = false :=
  Sat.exec_post (fun w c => World.perform_refusesMembers env w c)
    (sat_createBinding_refused r roleID members c (Json.jsonbAccepts_marshalStrings_of_nul hnul))

theorem createBinding_nul_member_fails_viewer :
    ((createBinding 1 4 [lit "a"] none).exec Env.reliable viewerWorld).1.toBool = true ∧
    ((createBinding 1 4 [[97, 0]] none).exec Env.reliable viewerWorld).1.toBool = false :=
  ⟨by decide, createBinding_nul_member_fails _ _ 1 4 [[97, 0]] none ⟨[97, 0], by decide, by decide⟩⟩

end Iam
