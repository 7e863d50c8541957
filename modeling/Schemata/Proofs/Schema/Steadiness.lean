import Schemata.Proofs.Schema.Nodes

/-! Parsing that does not depend on the session. Only a coercion to symbols does, as it takes a new one
from the session; tracing changes what is kept of a run and not what it answers. -/
namespace Schemata

theorem Coercion.apply_steady {c : Coercion} (other : c ≠ .symbol) (v : Value) :
    (c.apply v).Steady := by
  cases c with
  | symbol => exact absurd rfl other
  | _ => exact Run.steady_pure _

namespace Definition

variable {d : Definition} {transform : Option Transform}

theorem coerced_steady (fixed : d.coercion ≠ some .symbol) (v : Value) : (d.coerced v).Steady := by
  unfold coerced
  split
  · exact Run.steady_pure v
  · rename_i coercion wanted
    split
    · exact Run.steady_pure v
    · exact Coercion.apply_steady (fun same => fixed (wanted.trans (congrArg some same))) v

theorem safeParse_steady (fixed : d.coercion ≠ some .symbol)
    (steady : ∀ t, transform = some t → ∀ input, (t input).Steady) (v : Value) :
    (d.safeParse transform v).Steady := by
  unfold safeParse
  split
  · exact (Run.steady_trace _).bind fun _ => Run.steady_pure _
  · refine (coerced_steady fixed v).bind fun input => (Run.steady_lift _).bind fun messages => ?_
    dsimp only
    split
    · exact (Run.steady_trace _).bind fun _ => Run.steady_pure _
    · split
      · exact Run.steady_pure _
      · split
        · exact Run.steady_pure _
        · refine (steady _ rfl input).bind fun outcome => ?_
          split
          · exact (Run.steady_trace _).bind fun _ => Run.steady_pure _
          · exact Run.steady_pure _

end Definition

namespace Transform

variable {element key value : Parser} {input : Value}

theorem elements_steady (steady : ∀ v, (element v).Steady) (items : List Value) (index : Nat) :
    (elements element index items).Steady := by
  induction items generalizing index with
  | nil => exact Run.steady_pure _
  | cons v vs ih =>
    unfold elements
    refine (steady v).bind fun reply => (ih (index + 1)).bind fun found => ?_
    cases reply <;> exact Run.steady_pure _

theorem list_steady {kind : Kind} {build : List Value → Value} (steady : ∀ v, (element v).Steady)
    (input : Value) : (list kind build element input).Steady := by
  unfold list
  cases input with
  | array items | set items =>
    exact (elements_steady steady items 0).bind fun _ => (always_settled _ _ _ _).steady
  | _ => exact Run.steady_pure _

theorem entries_steady (keys : ∀ v, (key v).Steady) (values : ∀ v, (value v).Steady)
    (all : List (Value × Value)) : (entries key value all).Steady := by
  induction all with
  | nil => exact Run.steady_pure _
  | cons e rest ih =>
    unfold entries
    refine (keys e.1).bind fun keyReply => (values e.2).bind fun valueReply =>
      ih.bind fun found => ?_
    cases keyReply <;> cases valueReply <;> exact Run.steady_pure _

theorem map_steady (keys : ∀ v, (key v).Steady) (values : ∀ v, (value v).Steady) (input : Value) :
    (map key value input).Steady := by
  unfold map
  cases input with
  | map | object =>
    exact (entries_steady keys values _).bind fun _ => (always_settled _ _ _ _).steady
  | _ => exact Run.steady_pure _

theorem properties_steady {all : List (Property Parser)}
    (steady : ∀ p ∈ all, ∀ v, (p.node v).Steady) (root : Text) (input data : Value) (errors : Fields Value) :
    (properties root input all data errors).Steady := by
  induction all generalizing data errors with
  | nil => exact Run.steady_pure _
  | cons p rest ih =>
    obtain ⟨first, steady⟩ := List.forall_mem_cons.mp steady
    unfold properties
    refine (Run.steady_lift _).bind fun part => (first part).bind fun reply => ?_
    split
    · exact ih steady _ _
    · exact ih steady _ _
    · exact (Run.steady_lift _).bind fun _ => ih steady _ _

theorem object_steady {all : List (Property Parser)} (steady : ∀ p ∈ all, ∀ v, (p.node v).Steady)
    (root : Text) (input : Value) : (object all root input).Steady := by
  unfold object
  exact (properties_steady steady root input _ _).bind fun _ => (always_settled _ _ _ _).steady

end Transform

namespace Schema

variable {s : Schema}

/-- The node does not coerce to symbols, and a transform that takes the place of its own, if there is
one, goes by its input alone. -/
structure Sessionless (s : Schema) : Prop where
  fixed : s.definition.coercion ≠ some .symbol
  override : ∀ t, s.override = some t → ∀ input, (t input).Steady

theorem Sessionless.ofLeaf {kind : LeafKind} {c : Constraint} {description : Option Text} :
    Sessionless (ofLeaf kind c ⟨false, description⟩) :=
  ⟨nofun, nofun⟩

theorem safeParse_steady (sessionless : Everywhere Sessionless s) (v : Value) :
    (s.safeParse v).Steady := by
  induction sessionless generalizing v with
  | leaf here => exact Definition.safeParse_steady here.fixed here.override v
  | array here _ ih | set here _ ih =>
    exact Definition.safeParse_steady here.fixed
      (forall_transform (Transform.list_steady ih) here.override) v
  | map here _ _ ihKey ihValue =>
    exact Definition.safeParse_steady here.fixed
      (forall_transform (Transform.map_steady ihKey ihValue) here.override) v
  | object here _ ih =>
    refine Definition.safeParse_steady here.fixed
      (forall_transform (Transform.object_steady ?_ _) here.override) v
    rw [parsers_eq, List.forall_mem_map]
    exact ih

end Schema
end Schemata
