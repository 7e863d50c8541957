import Schemata.Proofs.Schema.SymbolSets

/-! Runs of calls that make symbols. A run starts from some symbols that there are; each call may have
any of them, and any that were made since, in its input. The symbols that a run makes are unequal to
one another and to all that there were before. -/
namespace Schemata

/-- A session, and the identities of the symbols that there are. -/
structure World where
  session : Session
  symbols : Set Nat

namespace World

/-- The supply has passed all symbols that there are. -/
def Sound (w : World) : Prop := ∀ identity ∈ w.symbols, identity < w.session.nextSymbol

/-- The world behind a call that has made symbols. -/
def after (w : World) (issued : List Nat) (τ : Session) : World :=
  ⟨τ, w.symbols ∪ {identity | identity ∈ issued}⟩

end World

/-- A call that may make symbols. -/
inductive Use where
  | symbol (description : Text)
  | toSymbol (v : Value)
  | safeParse (s : Schema) (v : Value)
  | parse (s : Schema) (v : Value)

namespace Use

/-- The values that the call answers with. -/
def run : Use → Run (List Value)
  | symbol description => do return [← Run.freshSymbol description]
  | toSymbol v => do return [← v.toSymbol]
  | safeParse s v => do return (← s.safeParse v).values
  | parse s v => do return [← s.parse v]

/-- The input has no symbols but those that there are. -/
def Admissible (w : World) : Use → Prop
  | symbol _ => True
  | toSymbol v => v.DrawnFrom w.symbols
  | safeParse s v | parse s v => s.Everywhere (Schema.Honest w.symbols) ∧ v.DrawnFrom w.symbols

end Use

/-- A run of calls from a world, with the identities of all symbols that are made in it. -/
inductive Unfolds : World → List Use → List Nat → World → Prop where
  | nil (w : World) : Unfolds w [] [] w
  | snoc : Unfolds w uses issued w' → use.Admissible w' →
      use.run.Issues w'.session more answer τ →
        Unfolds w (uses ++ [use]) (issued ++ more) (w'.after more τ)

/-- Symbols of these identities are unequal, whatever their descriptions. -/
def Value.Unlike (i j : Nat) : Prop := ∀ description other,
  eq (symbol i description) (symbol j other) = false ∧
    eq (symbol j other) (symbol i description) = false

variable {w w' : World} {uses : List Use} {use : Use} {issued : List Nat} {known : Set Nat}

theorem Value.unlike_of_ne {i j : Nat} (different : i ≠ j) : Unlike i j := by
  intro description other
  simp only [eq]
  exact ⟨beq_false_of_ne different, beq_false_of_ne different.symm⟩

theorem Use.run_gives (admissible : use.Admissible w) : use.run.Gives w.symbols id := by
  have handOn {α : Type} {values : α → List Value} {m : Run α} (gives : m.Gives w.symbols values) :
      (do return values (← m)).Gives w.symbols id :=
    gives.bind fun _ _ _ drawn => Run.gives_pure drawn
  cases use with
  | symbol description => exact handOn (Run.gives_freshSymbol description)
  | toSymbol v => exact handOn (Value.toSymbol_gives admissible)
  | safeParse s v =>
    obtain ⟨honest, drawn⟩ := admissible
    exact handOn (Schema.safeParse_honest honest w.symbols subset_rfl v drawn)
  | parse s v =>
    obtain ⟨honest, drawn⟩ := admissible
    exact handOn (Schema.parse_honest honest w.symbols subset_rfl v drawn)

namespace Unfolds

theorem symbols_eq (unfolds : Unfolds w uses issued w') :
    w'.symbols = w.symbols ∪ {identity | identity ∈ issued} := by
  induction unfolds with
  | nil => simp
  | snoc _ _ _ ih =>
    ext identity
    simp only [World.after, ih, Set.mem_union, Set.mem_ofPred_eq, List.mem_append, or_assoc]

theorem consecutive (unfolds : Unfolds w uses issued w') :
    Consecutive issued w.session.nextSymbol w'.session.nextSymbol := by
  induction unfolds with
  | nil => exact .nil _
  | snoc _ _ issues ih => exact ih.append issues.consecutive

theorem sound (unfolds : Unfolds w uses issued w') (sound : w.Sound) : w'.Sound := by
  have consecutive := unfolds.consecutive
  intro identity member
  rw [unfolds.symbols_eq] at member
  rcases member with old | new
  · rw [consecutive.2]
    exact Nat.lt_add_right _ (sound identity old)
  · exact (consecutive.mem_iff.mp new).2

/-- A run goes on with any call on what there is. -/
theorem goes_on (unfolds : Unfolds w uses issued w') (admissible : use.Admissible w') :
    ∃ more answer τ, Unfolds w (uses ++ [use]) (issued ++ more) (w'.after more τ) ∧
      use.run.outcome w'.session = (answer, τ) ∧
        ∀ v ∈ Run.found id answer, v.DrawnFrom (w'.after more τ).symbols := by
  obtain ⟨more, answer, τ, issues, drawn⟩ := Use.run_gives admissible w'.session
  exact ⟨more, answer, τ, unfolds.snoc admissible issues, issues.outcome, drawn⟩

theorem unlike (unfolds : Unfolds w uses issued w') (sound : w.Sound) :
    issued.Pairwise Value.Unlike ∧ ∀ i ∈ issued, ∀ j ∈ w.symbols, Value.Unlike i j := by
  have consecutive := unfolds.consecutive
  refine ⟨consecutive.nodup.imp Value.unlike_of_ne, fun i new j old => ?_⟩
  have before := sound j old
  have bound := (consecutive.mem_iff.mp new).1
  exact Value.unlike_of_ne (by omega)

/-- What a call has made can be read off the supply. -/
theorem snoc_of_answers {answer : List Value} {τ : Session} (unfolds : Unfolds w uses issued w')
    (use : Use) (admissible : use.Admissible w') (answered : use.run.Answers w'.session answer τ) :
    let more := List.range' w'.session.nextSymbol (τ.nextSymbol - w'.session.nextSymbol)
    Unfolds w (uses ++ [use]) (issued ++ more) (w'.after more τ) := by
  obtain ⟨made, came, ρ, issues, _⟩ := Use.run_gives admissible w'.session
  obtain ⟨rfl, rfl⟩ := Prod.mk.inj (issues.outcome.symm.trans answered)
  intro more
  rw [show more = made from issues.consecutive.eq_range'.symm]
  exact unfolds.snoc admissible issues

end Unfolds

theorem Value.toSymbol_issues {v : Value} (other : v.form ≠ .symbol) (σ : Session) :
    ∃ τ, v.toSymbol.Issues σ [σ.nextSymbol] (.ok (.symbol σ.nextSymbol v.toText)) τ := by
  cases v with
  | symbol => exact absurd rfl other
  | _ => exact ⟨_, .fresh _ σ⟩

namespace Schema

/-- How a set node whose element node coerces to symbols treats an input in a session. An output is
nullish, or it has a symbol of its own for every element that is neither a symbol nor nullish, of those
that the node has once it has coerced the input; and there is an output if the constraints of both
nodes are met. -/
structure CollectsSymbols (d e : Definition) (v : Value) (σ : Session) : Prop where
  collected : ∀ r τ, ((set d none (leaf e none)).safeParse v).Answers σ (.accepted r) τ →
    r.isNullish = true ∨ ∃ x items kept, (d.coerced v).Answers σ x σ ∧ x.elements = .ok items ∧
      (x = .set items → v.Unrepeated → Value.Distinct items) ∧ r = .set kept ∧
        Value.SymbolsOf σ.nextSymbol items kept
  accepts : ∀ x items, (d.coerced v).Answers σ x σ → x.elements = .ok items →
    d.constraint.violations x = .ok [] →
      (∀ u ∈ Value.asSymbols σ.nextSymbol items, e.constraint.violations u = .ok []) →
        ∃ kept τ, ((set d none (leaf e none)).safeParse v).Answers σ (.accepted (.set kept)) τ

/-- Symbols that coercions make are fresh over any run. Those that a run makes, in whatever calls, are
unequal to one another and to all that there were before it. The run goes on with every call on values
that there are by then, and what that answers has no other symbols. A symbol that is coerced to one
stays itself, alone or at a node, and a set whose elements are coerced to symbols has one for each. -/
theorem coerced_symbols_fresh (sound : w.Sound) (unfolds : Unfolds w uses issued w') :
    (issued.Pairwise Value.Unlike ∧ ∀ i ∈ issued, ∀ j ∈ w.symbols, Value.Unlike i j) ∧
    (∀ use : Use, use.Admissible w' → ∃ more answer τ,
      Unfolds w (uses ++ [use]) (issued ++ more) (w'.after more τ) ∧
        use.run.outcome w'.session = (answer, τ) ∧
          ∀ v ∈ Run.found id answer, v.DrawnFrom (w'.after more τ).symbols) ∧
    (∀ identity description, (Value.symbol identity description).toSymbol.Issues w'.session []
      (.ok (.symbol identity description)) w'.session) ∧
    (∀ v : Value, v.form ≠ .symbol → ∃ τ, v.toSymbol.Issues w'.session [w'.session.nextSymbol]
      (.ok (.symbol w'.session.nextSymbol v.toText)) τ) ∧
    ∀ e : Definition, e.coercion = some .symbol →
      (∀ v r τ, ((leaf e none).safeParse v).Answers w'.session (.accepted r) τ →
        r = v.asSymbol w'.session.nextSymbol) ∧
      ∀ d v, v.DrawnFrom w'.symbols → CollectsSymbols d e v w'.session := by
  refine ⟨unfolds.unlike sound, fun use => unfolds.goes_on,
    fun identity description => Run.issues_pure _ _,
    fun v other => Value.toSymbol_issues other w'.session, fun e wanted => ⟨fun v r τ answered => ?_,
      fun d v drawn => ⟨fun r τ answered => ?_, fun x items coerced listed passes checked => ?_⟩⟩⟩
  · exact (Definition.symbol_of_answers wanted answered).1
  · exact set_of_symbols wanted drawn (unfolds.sound sound) answered
  · exact set_of_symbols_accepted wanted coerced listed passes checked

/-- A set of symbols, coercing its elements and itself. -/
def symbolSet : Schema :=
  setOf (ofLeaf .symbol (.ofKind .symbol) ⟨true, none⟩) (.ofKind .set) ⟨true, none⟩

theorem symbolSet_honest : Everywhere (Honest known) symbolSet := by
  have made : Made symbolSet := .set _ (.leaf .symbol _ (.ofKind rfl)) (.ofKind rfl)
  exact made.honest (.set standard_honest (.leaf standard_honest))

/-- A number and its text, with a symbol that there is already. -/
def mixedInput : Value :=
  .set [.int 1, .string (Text.ofString "1"), .symbol 0 (Text.ofString "a")]

/-- A symbol is made by hand, a number is coerced on its own, and then the set is parsed. -/
def mixedUses : List Use :=
  [.symbol (Text.ofString "a"), .toSymbol (.int 1), .safeParse symbolSet mixedInput]

theorem mixedInput_drawn : mixedInput.DrawnFrom {0} := by
  refine Value.drawn_set_iff.mpr ?_
  simp only [List.forall_mem_cons, List.not_mem_nil, false_imp_iff, implies_true, and_true]
  exact ⟨Value.drawn_of_alone Form.noConfusion rfl, Value.drawn_string _,
    Value.drawn_symbol_iff.mpr rfl⟩

theorem mixedUses_unfold : Unfolds ⟨{}, ∅⟩ mixedUses [0, 1, 2, 3]
    ⟨{ nextSymbol := 4 }, ∅ ∪ {i | i ∈ [0]} ∪ {i | i ∈ [1]} ∪ {i | i ∈ [2, 3]}⟩ := by
  have made : Unfolds ⟨{}, ∅⟩ [.symbol (Text.ofString "a")] [0]
      ⟨{ nextSymbol := 1 }, ∅ ∪ {i | i ∈ [0]}⟩ :=
    (Unfolds.nil ⟨{}, ∅⟩).snoc_of_answers (.symbol (Text.ofString "a")) trivial rfl
  have coerced : Unfolds ⟨{}, ∅⟩ [.symbol (Text.ofString "a"), .toSymbol (.int 1)] [0, 1]
      ⟨{ nextSymbol := 2 }, ∅ ∪ {i | i ∈ [0]} ∪ {i | i ∈ [1]}⟩ :=
    made.snoc_of_answers (.toSymbol (.int 1)) (Value.drawn_of_alone Form.noConfusion rfl) rfl
  have parsed : (Use.safeParse symbolSet mixedInput).run.Answers { nextSymbol := 2 }
      [.set [.symbol 2 (Text.ofString "1"), .symbol 3 (Text.ofString "1"),
        .symbol 0 (Text.ofString "a")]] { nextSymbol := 4 } := by
    unfold Run.Answers
    cbv
  refine coerced.snoc_of_answers (.safeParse symbolSet mixedInput)
    ⟨symbolSet_honest, mixedInput_drawn.mono ?_⟩ parsed
  rintro _ rfl
  exact .inl (.inr List.mem_cons_self)

theorem coerced_symbols_fresh_mixed : World.Sound ⟨{}, ∅⟩ ∧
    Unfolds ⟨{}, ∅⟩ mixedUses [0, 1, 2, 3]
      ⟨{ nextSymbol := 4 }, ∅ ∪ {i | i ∈ [0]} ∪ {i | i ∈ [1]} ∪ {i | i ∈ [2, 3]}⟩ ∧
    [0, 1, 2, 3].Pairwise Value.Unlike ∧
      CollectsSymbols ⟨.ofKind .set, some .set, none⟩ ⟨.ofKind .symbol, some .symbol, none⟩ mixedInput
        { nextSymbol := 4 } := by
  have sound : World.Sound ⟨{}, ∅⟩ := fun _ none => absurd none (Set.notMem_empty _)
  have drawn : mixedInput.DrawnFrom (∅ ∪ {i | i ∈ [0]} ∪ {i | i ∈ [1]} ∪ {i | i ∈ [2, 3]}) := by
    refine mixedInput_drawn.mono ?_
    rintro _ rfl
    exact .inl (.inl (.inr List.mem_cons_self))
  obtain ⟨⟨apart, _⟩, _, _, _, nodes⟩ := coerced_symbols_fresh sound mixedUses_unfold
  exact ⟨sound, mixedUses_unfold, apart, (nodes _ rfl).2 _ mixedInput drawn⟩

/-- An array is made a set before its elements are coerced, so that two equal ones have one symbol. -/
theorem equal_elements_share_symbol :
    (symbolSet.safeParse (.array [.int 1, .int 1])).Answers {}
        (.accepted (.set [.symbol 0 (Text.ofString "1")])) { nextSymbol := 1 } ∧
      (([.int 1, .int 1] : List Value).filter fun v => !v.uncoerced).length ≠
        [Value.symbol 0 (Text.ofString "1")].length := by
  refine ⟨?_, by decide⟩
  unfold Run.Answers
  cbv

end Schema
end Schemata
