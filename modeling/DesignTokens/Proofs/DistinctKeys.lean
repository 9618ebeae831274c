import DesignTokens.Proofs.LastWrites
import DesignTokens.Token.Reader

set_option autoImplicit false

namespace DesignTokens

namespace Token

theorem distinctItems_iff (items : List Token) : DistinctItems items ↔ ∀ t ∈ items, t.Distinct := by
  induction items with
  | nil => simp [DistinctItems]
  | cons t rest ih => simp [DistinctItems, ih]

theorem distinctMembers_iff (members : List (String × Token)) :
    DistinctMembers members ↔ ∀ m ∈ members, m.2.Distinct := by
  induction members with
  | nil => simp [DistinctMembers]
  | cons m rest ih => simp [DistinctMembers, ih]

theorem distinct_group_ofList {members : List (String × Token)} (each : ∀ m ∈ members, m.2.Distinct) :
    (group (OrderedMap.ofList members)).Distinct := by
  refine ⟨OrderedMap.distinct_ofList members, (distinctMembers_iff _).mpr fun m member => ?_⟩
  exact each m (OrderedMap.mem_of_mem_ofList members m member)

mutual

theorem distinct_ofJson (j : Json) : (ofJson j).Distinct := by
  cases j with
  | null | bool | number | string => trivial
  | array items => exact (distinctItems_iff _).mpr (distinct_itemsOfJson items)
  | object members => exact distinct_group_ofList (distinct_membersOfJson members)

theorem distinct_itemsOfJson (items : List Json) : ∀ t ∈ itemsOfJson items, t.Distinct := by
  cases items with
  | nil => simp [itemsOfJson]
  | cons item rest =>
    exact List.forall_mem_cons.mpr ⟨distinct_ofJson item, distinct_itemsOfJson rest⟩

theorem distinct_membersOfJson (members : List (String × Json)) :
    ∀ m ∈ membersOfJson members, m.2.Distinct := by
  cases members with
  | nil => simp [membersOfJson]
  | cons m rest =>
    exact List.forall_mem_cons.mpr ⟨distinct_ofJson m.2, distinct_membersOfJson rest⟩

end

end Token

namespace Yaml

variable {α β : Type} {P : α → Prop} {Q : β → Prop}

/-- Whatever the reading gives, from any count of aliases, is as `P` says. -/
def Gives (f : Follow α) (P : α → Prop) : Prop :=
  ∀ n a m, f.run n = some (a, m) → P a

theorem gives_pure {a : α} (holds : P a) : Gives (pure a) P := by
  intro n b m read
  obtain ⟨rfl, -⟩ : a = b ∧ n = m := by simpa using read
  exact holds

theorem gives_failure : Gives failure P :=
  fun n a m read => by simp at read

theorem gives_bind {f : Follow α} {g : α → Follow β} (first : Gives f P)
    (later : ∀ a, P a → Gives (g a) Q) : Gives (f >>= g) Q := by
  intro n b m read
  simp only [StateT.run_bind, Option.bind_eq_bind, Option.bind_eq_some_iff] at read
  obtain ⟨⟨a, next⟩, here, there⟩ := read
  exact later a (first n a next here) next b m there

theorem gives_bind_any {f : Follow α} {g : α → Follow β} (later : ∀ a, Gives (g a) Q) :
    Gives (f >>= g) Q :=
  gives_bind (P := fun _ => True) (fun _ _ _ _ => trivial) fun a _ => later a

theorem gives_mapM {f : α → Follow β} (each : ∀ a, Gives (f a) Q) (as : List α) :
    Gives (as.mapM f) fun bs => ∀ b ∈ bs, Q b := by
  induction as with
  | nil => exact gives_pure (by simp)
  | cons a rest ih =>
    rw [List.mapM_cons]
    refine gives_bind (each a) fun b here => gives_bind ih fun bs others => gives_pure ?_
    exact List.forall_mem_cons.mpr ⟨here, others⟩

end Yaml

open Yaml

theorem readScalar_distinct (tag : Option Tag) (plain : Bool) (text : String) :
    Gives (readScalar tag plain text) Token.Distinct := by
  unfold readScalar
  split
  · exact gives_pure trivial
  · exact gives_failure

theorem readToken_distinct (d : Document) (depth : Nat) (node : Node) :
    Gives (readToken d depth node) Token.Distinct := by
  -- An alias leads elsewhere in the document, so the depth goes down where the node need not.
  induction depth generalizing node with
  | zero =>
    rw [readToken]
    refine gives_bind_any fun node => ?_
    cases node with
    | scalar tag plain text => exact readScalar_distinct tag plain text
    | sequence | mapping | link => exact gives_failure
  | succ depth ih =>
    rw [readToken]
    refine gives_bind_any fun node => ?_
    cases node with
    | scalar tag plain text => exact readScalar_distinct tag plain text
    | sequence tag items =>
      refine gives_bind_any fun _ => gives_bind (gives_mapM ih items) fun tokens each => ?_
      exact gives_pure ((Token.distinctItems_iff tokens).mpr each)
    | mapping tag entries =>
      have entry (e : Node × Node) :
          Gives (do let key ← readKey d e.1; return (key, ← readToken d depth e.2))
            fun m : String × Token => m.2.Distinct :=
        gives_bind_any fun key => gives_bind (ih e.2) fun t distinct => gives_pure distinct
      refine gives_bind_any fun _ => gives_bind (gives_mapM entry entries) fun members each => ?_
      exact gives_pure (Token.distinct_group_ofList each)
    | link => exact gives_failure

namespace Group

theorem distinct_of_readJson {text : String} {g : Group} (read : readJson text = .ok g) :
    g.Distinct := by
  unfold readJson at read
  split at read
  next => cases read
  next value rest _ =>
    split at read
    next members written =>
      have distinct := Token.distinct_ofJson value
      rw [written] at distinct
      split at read
      next =>
        obtain rfl := Except.ok.inj read
        exact distinct
      next => cases read
    next => cases read

theorem distinct_of_readYaml {text : String} {g : Group} (read : readYaml text = .ok g) :
    g.Distinct := by
  unfold readYaml at read
  split at read
  next d _ =>
    split at read
    next members followed written =>
      obtain rfl := Except.ok.inj read
      exact readToken_distinct d _ d.root 0 _ followed written
    next => cases read
    next => cases read
  next => cases read
  next => cases read

/-- A read group names each member once, and so does every group in it. -/
theorem distinct_of_read {format : TokenFormat} {text : String} {g : Group}
    (read : Group.read format text = .ok g) : g.Distinct := by
  cases format with
  | yaml => exact distinct_of_readYaml read
  | json => exact distinct_of_readJson read

end Group

end DesignTokens
