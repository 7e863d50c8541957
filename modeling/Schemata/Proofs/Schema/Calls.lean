import Schemata.Proofs.Schema.Memo
import Schemata.Proofs.Schema.Reversal

/-! Sequences of calls on nodes. Calls make nodes nullable or nullish in place, copy them, assign
them, parse with them and ask for their reverses, in any order; they go to nodes and, where they
change nothing, to reverses that have been built. Whatever calls came before, a reverse that is
asked for is the one that building it from the node as it is now would give. -/
namespace Schemata

/-- A node by its place, or its reverse, or the reverse of that, by how often it is reversed. -/
structure Ref where
  place : Nat
  depth : Nat
deriving DecidableEq

inductive Call where
  | nullable (place : Nat)
  | nullish (place : Nat)
  | copy (source : Ref)
  | assign (place : Nat) (source : Ref)
  | safeParse (source : Ref) (input : Value)
  | reverse (source : Ref)

namespace Call

/-- Acts on a node and one of its levels; where there is no such level there is nothing to do. -/
def onLevel (nodes : List Node) (ref : Ref) (act : Node → Schema → Run (List Node)) :
    Run (List Node) :=
  match nodes[ref.place]? with
  | none => return nodes
  | some n =>
    match n.levels[ref.depth]? with
    | none => return nodes
    | some s => act n s

/-- The nodes after a call. Copies are new nodes, and what is assigned to is new as well unless it is
assigned to itself: neither keeps a reverse. -/
def perform (nodes : List Node) : Call → Run (List Node)
  | nullable place => onLevel nodes ⟨place, 0⟩ fun n _ => return nodes.set place n.nullable
  | nullish place => onLevel nodes ⟨place, 0⟩ fun n _ => return nodes.set place n.nullish
  | copy source => onLevel nodes source fun _ s => return nodes ++ [.ofSchema s]
  | assign place source =>
    if source = ⟨place, 0⟩ then return nodes
    else onLevel nodes source fun _ s => return nodes.set place (.ofSchema s)
  | safeParse source input => onLevel nodes source fun _ s => do
    let _ ← s.safeParse input
    return nodes
  | reverse source => onLevel nodes source fun n _ => do
    let (_, n) ← n.reverseAt source.depth
    return nodes.set source.place n

end Call

/-- Nodes, and the session that the calls on them share. -/
structure Store where
  nodes : List Node
  session : Session

namespace Store

def ofSchemas (schemas : List Schema) (session : Session) : Store :=
  ⟨schemas.map .ofSchema, session⟩

/-- A call that is refused leaves the nodes as they were. -/
def after (store : Store) (call : Call) : Store :=
  match (call.perform store.nodes).outcome store.session with
  | (.ok nodes, session) => ⟨nodes, session⟩
  | (.error _, session) => ⟨store.nodes, session⟩

def afterAll (store : Store) (calls : List Call) : Store := calls.foldl after store

/-- Every reverse that any node keeps is up to date. -/
def UpToDate (store : Store) : Prop := ∀ n ∈ store.nodes, n.UpToDate

end Store

variable {nodes changed : List Node} {ref : Ref} {act : Node → Schema → Run (List Node)}
  {n m : Node} {store : Store} {σ τ : Session}

theorem upToDate_set {place : Nat} (current : ∀ n ∈ nodes, n.UpToDate) (own : m.UpToDate) :
    ∀ n ∈ nodes.set place m, n.UpToDate := by
  intro n member
  rcases List.mem_or_eq_of_mem_set member with old | rfl
  · exact current n old
  · exact own

namespace Call

theorem onLevel_answers (answered : (onLevel nodes ref act).Answers σ changed τ) :
    changed = nodes ∨ ∃ n ∈ nodes, ∃ s, (act n s).Answers σ changed τ := by
  unfold onLevel at answered
  split at answered
  · exact .inl (Run.answers_pure_iff.mp answered).1.symm
  · rename_i n found
    split at answered
    · exact .inl (Run.answers_pure_iff.mp answered).1.symm
    · exact .inr ⟨n, List.mem_of_getElem? found, _, answered⟩

theorem upToDate_onLevel (current : ∀ n ∈ nodes, n.UpToDate)
    (answered : (onLevel nodes ref act).Answers σ changed τ)
    (acts : ∀ n ∈ nodes, ∀ s, (act n s).Answers σ changed τ → ∀ m ∈ changed, m.UpToDate) :
    ∀ m ∈ changed, m.UpToDate := by
  rcases onLevel_answers answered with rfl | ⟨n, member, s, acted⟩
  · exact current
  · exact acts n member s acted

/-- A call keeps every reverse up to date. -/
theorem perform_upToDate {call : Call} (current : ∀ n ∈ nodes, n.UpToDate)
    (answered : (call.perform nodes).Answers σ changed τ) : ∀ m ∈ changed, m.UpToDate := by
  cases call with
  | nullable place =>
    rw [perform] at answered
    refine upToDate_onLevel current answered fun n member s acted => ?_
    obtain ⟨rfl, _⟩ := Run.answers_pure_iff.mp acted
    exact upToDate_set current (current n member).nullable
  | nullish place =>
    rw [perform] at answered
    refine upToDate_onLevel current answered fun n member s acted => ?_
    obtain ⟨rfl, _⟩ := Run.answers_pure_iff.mp acted
    exact upToDate_set current (current n member).nullish
  | copy source =>
    refine upToDate_onLevel current answered fun n member s acted => ?_
    obtain ⟨rfl, _⟩ := Run.answers_pure_iff.mp acted
    intro m listed
    rcases List.mem_append.mp listed with old | new
    · exact current m old
    · exact List.mem_singleton.mp new ▸ Node.upToDate_ofSchema s
  | assign place source =>
    rw [perform] at answered
    split at answered
    · obtain ⟨rfl, _⟩ := Run.answers_pure_iff.mp answered
      exact current
    · refine upToDate_onLevel current answered fun n member s acted => ?_
      obtain ⟨rfl, _⟩ := Run.answers_pure_iff.mp acted
      exact upToDate_set current (Node.upToDate_ofSchema s)
  | safeParse source input =>
    refine upToDate_onLevel current answered fun n member s acted => ?_
    simp only [Run.answers_bind_iff, Run.answers_pure_iff] at acted
    obtain ⟨_, _, _, rfl, _⟩ := acted
    exact current
  | reverse source =>
    refine upToDate_onLevel current answered fun n member s acted => ?_
    simp only [Run.answers_bind_iff, Run.answers_pure_iff] at acted
    obtain ⟨⟨_, kept⟩, _, reversed, rfl, _⟩ := acted
    exact upToDate_set current ((current n member).reverseAt reversed)

end Call

namespace Store

theorem upToDate_ofSchemas (schemas : List Schema) : (ofSchemas schemas σ).UpToDate := by
  intro n member
  obtain ⟨s, _, rfl⟩ := List.mem_map.mp member
  exact Node.upToDate_ofSchema s

theorem UpToDate.after (current : store.UpToDate) (call : Call) : (store.after call).UpToDate := by
  unfold Store.after
  split
  · rename_i answered
    exact Call.perform_upToDate current answered
  · exact current

theorem UpToDate.afterAll (current : store.UpToDate) (calls : List Call) :
    (store.afterAll calls).UpToDate := by
  induction calls generalizing store with
  | nil => exact current
  | cons call rest ih => exact ih (current.after call)

/-- A reverse that has been kept is always up to date. After any calls, on any nodes, a level of a
node that is asked for its reverse answers just what reversing the node as it is now, all anew and as
often, would answer, or is refused for the same reason; and the reverse that it answers with is the
one that later calls find. -/
theorem kept_reverse_current (schemas : List Schema) (σ : Session) (calls : List Call) (n : Node)
    (member : n ∈ ((ofSchemas schemas σ).afterAll calls).nodes) (depth : Nat)
    (built : depth < n.levels.length) :
    (∀ ρ τ, ((Prod.fst <$> n.reverseAt depth).outcome ρ).1 =
      ((Schema.reverseTimes (depth + 1) n.schema).outcome τ).1) ∧
      ∀ ρ r m τ, (n.reverseAt depth).Answers ρ (r, m) τ → m.levels[depth + 1]? = some r := by
  have current := (upToDate_ofSchemas schemas).afterAll calls n member
  constructor
  · intro ρ τ
    exact current.reverseAt_eq built ρ τ
  · intro ρ r m τ answered
    exact Node.reverseAt_kept built answered

/-- A contact is reversed, then made nullish, and its reverse is copied. -/
def contactCalls : List Call := [.reverse ⟨0, 0⟩, .nullish 0, .copy ⟨0, 1⟩]

/-- The contact and the reverse that it keeps, both nullish by now. -/
def contactNode : Node := ⟨Schema.contact.nullish, [Schema.contactReverse.nullish]⟩

theorem contactCalls_nodes : ((ofSchemas [Schema.contact] {}).afterAll contactCalls).nodes =
    [contactNode, .ofSchema Schema.contactReverse.nullish] := by
  cbv

theorem kept_reverse_current_contact :
    contactNode ∈ ((ofSchemas [Schema.contact] {}).afterAll contactCalls).nodes ∧
      0 < contactNode.levels.length ∧
      (∀ ρ τ, ((Prod.fst <$> contactNode.reverseAt 0).outcome ρ).1 =
        ((Schema.reverseTimes 1 contactNode.schema).outcome τ).1) ∧
        ∀ ρ r m τ, (contactNode.reverseAt 0).Answers ρ (r, m) τ → m.levels[1]? = some r := by
  have member : contactNode ∈ ((ofSchemas [Schema.contact] {}).afterAll contactCalls).nodes := by
    rw [contactCalls_nodes]
    exact List.mem_cons_self
  have built : 0 < contactNode.levels.length := by decide
  exact ⟨member, built, kept_reverse_current _ _ _ contactNode member 0 built⟩

end Store
end Schemata
