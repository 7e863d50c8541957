import Schemata.Proofs.Schema.Collections
import Schemata.Proofs.Schema.Symbols

/-! Sets of symbols. An element that coerces to symbols makes a new symbol of every item that is
neither a symbol nor nullish. No two of the new ones are equal, and none equals what was there before,
so a set keeps them all. -/
namespace Schemata

namespace Value

/-- What a coercion to symbols leaves as it is. -/
def uncoerced : Value → Bool
  | undefined | null | symbol .. => true
  | _ => false

def isSymbolFrom (first : Nat) : Value → Bool
  | symbol identity _ => first ≤ identity
  | _ => false

/-- What a coercion to symbols comes to when the supply is at `next`. -/
def asSymbol (next : Nat) (v : Value) : Value := if v.uncoerced then v else symbol next v.toText

/-- Where the supply is behind the coercion. -/
def nextAfter (next : Nat) (v : Value) : Nat := if v.uncoerced then next else next + 1

def asSymbols : Nat → List Value → List Value
  | _, [] => []
  | next, v :: vs => v.asSymbol next :: asSymbols (v.nextAfter next) vs

/-- A symbol for every item, described by its text. -/
def newSymbols : Nat → List Value → List Value
  | _, [] => []
  | next, v :: vs => symbol next v.toText :: newSymbols (next + 1) vs

/-- Elements of a set that items are read into as symbols: for every item that is coerced a symbol of
its own, from `next` on and in the items' order, and beside them only items that stay as they are, of
which every one is there or has an equal there. No element is lost unless an item equals a later one. -/
structure SymbolsOf (next : Nat) (items kept : List Value) : Prop where
  distinct : Distinct kept
  all : Distinct items → kept = asSymbols next items
  each : kept.filter (isSymbolFrom next) = newSymbols next (items.filter fun v => !v.uncoerced)
  others : ∀ u ∈ kept, u.isSymbolFrom next = false → u ∈ items ∧ u.uncoerced = true
  covered : ∀ v ∈ items, v.uncoerced = true → ∃ u ∈ kept, eq u v = true

variable {v u : Value} {vs items kept : List Value} {first next : Nat}

theorem isSymbolFrom_eq_true (later : u.isSymbolFrom first = true) :
    ∃ identity description, u = symbol identity description ∧ first ≤ identity := by
  cases u with
  | symbol identity description => exact ⟨identity, description, rfl, of_decide_eq_true later⟩
  | _ => cases later

theorem uncoerced_of_nullish (nullish : v.isNullish = true) : v.uncoerced = true := by
  cases v with
  | undefined | null => rfl
  | _ => cases nullish

theorem eq_self_of_uncoerced (kept : v.uncoerced = true) : eq v v = true := by
  cases v with
  | undefined | null | symbol => simp [eq]
  | _ => cases kept

theorem eq_symbol_iff {identity : Nat} {description : Text} :
    eq u (symbol identity description) = true ↔ ∃ other, u = symbol identity other := by
  cases u <;> simp [eq]

theorem mem_asSymbols (member : u ∈ asSymbols next items) :
    (u ∈ items ∧ u.uncoerced = true) ∨
      ∃ identity description, u = symbol identity description ∧ next ≤ identity := by
  induction items generalizing next with
  | nil => cases member
  | cons v vs ih =>
    rcases List.mem_cons.mp member with rfl | member
    · unfold asSymbol
      split
      · exact .inl ⟨List.mem_cons_self, ‹_›⟩
      · exact .inr ⟨next, _, rfl, le_rfl⟩
    · rcases ih member with ⟨later, stays⟩ | ⟨identity, description, same, bound⟩
      · exact .inl ⟨List.mem_cons_of_mem v later, stays⟩
      · refine .inr ⟨identity, description, same, le_trans ?_ bound⟩
        unfold nextAfter
        split <;> omega

theorem mem_asSymbols_of_uncoerced (member : v ∈ items) (stays : v.uncoerced = true) :
    v ∈ asSymbols next items := by
  induction items generalizing next with
  | nil => cases member
  | cons w ws ih =>
    rcases List.mem_cons.mp member with rfl | member
    · rw [asSymbols, asSymbol, if_pos stays]
      exact List.mem_cons_self
    · exact List.mem_cons_of_mem _ (ih member)

theorem filter_asSymbols (old : ∀ v ∈ items, v.isSymbolFrom first = false) (reached : first ≤ next) :
    (asSymbols next items).filter (isSymbolFrom first) =
      newSymbols next (items.filter fun v => !v.uncoerced) := by
  induction items generalizing next with
  | nil => rfl
  | cons v vs ih =>
    obtain ⟨here, old⟩ := List.forall_mem_cons.mp old
    rw [asSymbols, asSymbol, nextAfter]
    cases stays : v.uncoerced with
    | true => simp [here, stays, ih old reached]
    | false =>
      simp [stays, isSymbolFrom, reached, ih old (Nat.le_succ_of_le reached), newSymbols]

theorem le_nextAfter (v : Value) (next : Nat) : next ≤ v.nextAfter next := by
  unfold nextAfter
  split <;> omega

/-- A symbol that is made later is another one. -/
theorem asSymbol_unlike_later {identity : Nat} {description : Text}
    (old : v.isSymbolFrom first = false) (reached : first ≤ next)
    (later : v.nextAfter next ≤ identity) :
    eq (v.asSymbol next) (symbol identity description) = false := by
  refine Bool.eq_false_iff.mpr fun equal => ?_
  obtain ⟨other, same⟩ := eq_symbol_iff.mp equal
  cases stays : v.uncoerced with
  | true =>
    rw [asSymbol, if_pos stays] at same
    subst same
    have before := of_decide_eq_false old
    have bound := (le_nextAfter (symbol identity other) next).trans later
    omega
  | false =>
    rw [asSymbol, if_neg (by simp [stays])] at same
    rw [nextAfter, if_neg (by simp [stays])] at later
    obtain ⟨rfl, _⟩ := symbol.inj same
    omega

/-- A new symbol is unequal to all that come before it. -/
theorem apart_asSymbols (old : ∀ v ∈ items, v.isSymbolFrom first = false) (reached : first ≤ next) :
    (asSymbols next items).Pairwise fun earlier later =>
      later.isSymbolFrom first = true → eq earlier later = false := by
  induction items generalizing next with
  | nil => exact .nil
  | cons v vs ih =>
    obtain ⟨here, old⟩ := List.forall_mem_cons.mp old
    refine List.pairwise_cons.mpr
      ⟨fun later member new => ?_, ih old (reached.trans (le_nextAfter v next))⟩
    rcases mem_asSymbols member with ⟨item, _⟩ | ⟨identity, description, rfl, bound⟩
    · rw [old later item] at new
      cases new
    · exact asSymbol_unlike_later here reached bound

theorem Distinct.asSymbols (distinct : Distinct items)
    (old : ∀ v ∈ items, v.isSymbolFrom first = false) (reached : first ≤ next) :
    Distinct (asSymbols next items) := by
  induction items generalizing next with
  | nil => exact .nil
  | cons v vs ih =>
    obtain ⟨apart, distinct⟩ := List.pairwise_cons.mp distinct
    obtain ⟨here, old⟩ := List.forall_mem_cons.mp old
    refine List.pairwise_cons.mpr
      ⟨fun later member => ?_, ih distinct old (reached.trans (le_nextAfter v next))⟩
    rcases mem_asSymbols member with ⟨item, stays⟩ | ⟨identity, description, rfl, bound⟩
    · have before := old later item
      unfold asSymbol
      split
      · exact apart later item
      · cases later with
        | symbol own =>
          rw [eq]
          exact beq_false_of_ne fun same => of_decide_eq_false before (same ▸ reached)
        | undefined | null => simp [eq]
        | _ => cases stays
    · exact asSymbol_unlike_later here reached bound

theorem symbolsOf_foldl (old : ∀ v ∈ items, v.isSymbolFrom next = false) :
    SymbolsOf next items ((asSymbols next items).foldl addItem []) := by
  have firsts := firstsOf_foldl (asSymbols next items)
  refine ⟨firsts.distinct, fun distinct => ?_, ?_, fun u member stays => ?_,
    fun v member stays => ?_⟩
  · have all : Distinct ([] ++ asSymbols next items) := distinct.asSymbols old le_rfl
    rw [foldl_addItem_of_distinct all]
    rfl
  · rw [filter_foldl_addItem (apart_asSymbols old le_rfl)]
    exact filter_asSymbols old le_rfl
  · rcases mem_asSymbols (firsts.sublist.subset member) with item | ⟨_, _, rfl, bound⟩
    · exact item
    · exact absurd bound (of_decide_eq_false stays)
  · have read : v ∈ asSymbols next items := mem_asSymbols_of_uncoerced member stays
    obtain ⟨before, after, split⟩ := List.append_of_mem read
    rcases firsts.covered before v after split with here | ⟨earlier, _, here, equal⟩
    · exact ⟨v, here, eq_self_of_uncoerced stays⟩
    · exact ⟨earlier, here, equal⟩

end Value

open Value

section Elements

variable {d e : Definition} {v x r : Value} {items : List Value} {given : List Reply}
  {σ ρ τ : Session}

namespace Definition

theorem coerced_symbol (wanted : e.coercion = some .symbol) (v : Value) (σ : Session) :
    ∃ τ, (e.coerced v).Answers σ (v.asSymbol σ.nextSymbol) τ ∧
      τ.nextSymbol = v.nextAfter σ.nextSymbol := by
  unfold coerced
  rw [wanted]
  cases v <;> exact ⟨_, rfl, rfl⟩

theorem symbol_of_answers (wanted : e.coercion = some .symbol)
    (answered : (e.safeParse none v).Answers σ (.accepted r) τ) :
    r = v.asSymbol σ.nextSymbol ∧ τ.nextSymbol = v.nextAfter σ.nextSymbol ∧
      e.constraint.violations r = .ok [] := by
  have read {τ : Session} (coerced : (e.coerced v).Answers σ r τ) :
      r = v.asSymbol σ.nextSymbol ∧ τ.nextSymbol = v.nextAfter σ.nextSymbol := by
    obtain ⟨_, expected, next⟩ := coerced_symbol wanted v σ
    obtain ⟨rfl, rfl⟩ := coerced.unique expected
    exact ⟨rfl, next⟩
  cases answers_iff.mp answered with
  | admitted admitted traced =>
    have stays := uncoerced_of_nullish (Constraint.nullish_of_admits admitted)
    rw [asSymbol, nextAfter, if_pos stays, if_pos stays]
    exact ⟨rfl, Run.nextSymbol_of_trace traced, Constraint.violations_eq_nil_iff.mpr (.inl admitted)⟩
  | nullish _ coerced checked _ | plain _ coerced checked _ =>
    obtain ⟨same, next⟩ := read coerced
    exact ⟨same, next, checked⟩

theorem answers_symbol (wanted : e.coercion = some .symbol)
    (checked : e.constraint.violations (v.asSymbol σ.nextSymbol) = .ok []) :
    ∃ τ, (e.safeParse none v).Answers σ (.accepted (v.asSymbol σ.nextSymbol)) τ ∧
      τ.nextSymbol = v.nextAfter σ.nextSymbol := by
  cases admitted : e.constraint.admits v with
  | true =>
    have stays := uncoerced_of_nullish (Constraint.nullish_of_admits admitted)
    obtain ⟨τ, traced⟩ := Run.always_trace _ σ
    rw [asSymbol, nextAfter, if_pos stays, if_pos stays]
    exact ⟨τ, answers_iff.mpr (.admitted admitted traced), Run.nextSymbol_of_trace traced⟩
  | false =>
    obtain ⟨τ, coerced, next⟩ := coerced_symbol wanted v σ
    refine ⟨τ, answers_iff.mpr ?_, next⟩
    cases nullish : (v.asSymbol σ.nextSymbol).isNullish with
    | true => exact .nullish admitted coerced checked nullish
    | false => exact .plain admitted coerced checked nullish

end Definition

namespace Transform

/-- The elements are read one by one, each with the supply where the one before has left it. -/
theorem symbols_of_replies (wanted : e.coercion = some .symbol)
    (answered : (items.mapM (e.safeParse none)).Answers σ given τ)
    (silent : ∀ problem, .rejected problem ∉ given) : accepted given = asSymbols σ.nextSymbol items ∧
      ∀ u ∈ asSymbols σ.nextSymbol items, e.constraint.violations u = .ok [] := by
  induction items generalizing σ given with
  | nil =>
    obtain ⟨rfl, _⟩ := Run.answers_pure_iff.mp answered
    exact ⟨rfl, fun _ none => by cases none⟩
  | cons v vs ih =>
    simp only [List.mapM_cons, Run.answers_bind_iff, Run.answers_pure_iff] at answered
    obtain ⟨reply, ρ, first, later, _, rest, rfl, rfl⟩ := answered
    cases reply with
    | rejected problem => exact absurd List.mem_cons_self (silent problem)
    | accepted data =>
      obtain ⟨rfl, next, checked⟩ := Definition.symbol_of_answers wanted first
      obtain ⟨same, others⟩ := ih rest fun problem member =>
        silent problem (List.mem_cons_of_mem _ member)
      rw [next] at same others
      rw [accepted, same, asSymbols]
      exact ⟨rfl, List.forall_mem_cons.mpr ⟨checked, others⟩⟩

theorem replies_of_symbols (wanted : e.coercion = some .symbol)
    (checked : ∀ u ∈ asSymbols σ.nextSymbol items, e.constraint.violations u = .ok []) :
    ∃ τ, (items.mapM (e.safeParse none)).Answers σ
      ((asSymbols σ.nextSymbol items).map .accepted) τ := by
  induction items generalizing σ with
  | nil => exact ⟨σ, Run.answers_pure_iff.mpr ⟨rfl, rfl⟩⟩
  | cons v vs ih =>
    obtain ⟨here, later⟩ := List.forall_mem_cons.mp checked
    obtain ⟨ρ, first, next⟩ := Definition.answers_symbol wanted here
    rw [← next] at later
    obtain ⟨τ, rest⟩ := ih later
    refine ⟨τ, ?_⟩
    simp only [List.mapM_cons, Run.answers_bind_iff, Run.answers_pure_iff]
    rw [next] at rest
    exact ⟨_, ρ, first, _, τ, rest, rfl, rfl⟩

/-- A set of symbols succeeds exactly when all that its items are read as passes. -/
theorem set_symbols_iff (wanted : e.coercion = some .symbol) (listed : x.elements = .ok items) :
    (∃ outcome τ, (set (e.safeParse none) x).Answers σ outcome τ ∧ outcome.failed = false ∧
      outcome.data = r) ↔ (∀ u ∈ asSymbols σ.nextSymbol items, e.constraint.violations u = .ok []) ∧
        ofItems (asSymbols σ.nextSymbol items) = r := by
  constructor
  · rintro ⟨outcome, τ, answered, succeeded, rfl⟩
    rcases Run.faults_or_answers (items.mapM (e.safeParse none)) σ with
      ⟨fault, refused⟩ | ⟨given, ρ, replied⟩
    · exact absurd (list_faults_of_mapM listed refused) answered.not_faults
    · obtain ⟨_, expected⟩ := list_answers_of_mapM .set ofItems listed replied
      obtain ⟨rfl, _⟩ := answered.unique expected
      have silent := silent_of_listOutcome succeeded
      obtain ⟨same, checked⟩ := symbols_of_replies wanted replied silent
      exact ⟨checked, by rw [data_listOutcome silent, same]⟩
  · rintro ⟨checked, rfl⟩
    obtain ⟨ρ, replied⟩ := replies_of_symbols wanted checked
    obtain ⟨τ, answered⟩ := list_answers_of_mapM .set ofItems listed replied
    have silent : ∀ problem,
        .rejected problem ∉ (asSymbols σ.nextSymbol items).map Reply.accepted := by
      intro problem member
      obtain ⟨_, _, same⟩ := List.mem_map.mp member
      cases same
    obtain ⟨same, _⟩ := symbols_of_replies wanted replied silent
    refine ⟨_, τ, answered, ?_, by rw [data_listOutcome silent, same]⟩
    refine Bool.eq_false_iff.mpr fun failed => ?_
    obtain ⟨problem, member⟩ := failed_listOutcome_iff.mp failed
    exact silent problem member

end Transform

namespace Schema

variable {known : Set Nat}

theorem unmoved_of_listed (coerced : (d.coerced v).Answers σ x ρ) (listed : x.elements = .ok items) :
    ρ = σ := by
  unfold Definition.coerced at coerced
  split at coerced
  · exact (Run.answers_pure_iff.mp coerced).2.symm
  · rename_i coercion _
    split at coerced
    · exact (Run.answers_pure_iff.mp coerced).2.symm
    · cases coercion with
      | symbol =>
        cases v <;> cases coerced <;> cases listed
      | _ => exact (Run.answers_pure_iff.mp coerced).2.symm

/-- A set that a node goes on with has no repeated elements unless its input has. -/
theorem distinct_of_coerced (coerced : (d.coerced v).Answers σ (.set items) ρ)
    (unrepeated : v.Unrepeated) : Distinct items := by
  have self (same : v = .set items) : Distinct items := by
    subst same
    exact unrepeated
  unfold Definition.coerced at coerced
  split at coerced
  · exact self (Run.answers_pure_iff.mp coerced).1
  · rename_i coercion _
    split at coerced
    · exact self (Run.answers_pure_iff.mp coerced).1
    · cases coercion with
      | symbol => cases v <;> cases coerced
      | string | boolean => cases (Run.answers_pure_iff.mp coerced).1
      | number =>
        have number := isNumber_toNumber v
        rw [(Run.answers_pure_iff.mp coerced).1] at number
        cases number
      | date => cases v <;> cases (Run.answers_pure_iff.mp coerced).1
      | array => cases v <;> cases (Run.answers_pure_iff.mp coerced).1
      | map =>
        cases v with
        | object => cases (Run.answers_pure_iff.mp coerced).1
        | _ => exact self (Run.answers_pure_iff.mp coerced).1
      | set =>
        cases v with
        | array all =>
          obtain ⟨kept, built, distinct, _⟩ := ofItems_spec all
          have same := built.symm.trans (Run.answers_pure_iff.mp coerced).1
          exact Value.set.inj same ▸ distinct
        | _ => exact self (Run.answers_pure_iff.mp coerced).1

/-- A set of symbols, where no symbol that the input has is new: it is nullish, or it has a symbol of
its own for each element that is neither a symbol nor nullish. -/
theorem set_of_symbols (wanted : e.coercion = some .symbol) (drawn : v.DrawnFrom known)
    (old : ∀ identity ∈ known, identity < σ.nextSymbol)
    (answered : ((set d none (leaf e none)).safeParse v).Answers σ (.accepted r) τ) :
    r.isNullish = true ∨ ∃ x items kept, (d.coerced v).Answers σ x σ ∧ x.elements = .ok items ∧
      (x = .set items → v.Unrepeated → Distinct items) ∧ r = .set kept ∧
        SymbolsOf σ.nextSymbol items kept := by
  cases Definition.answers_iff.mp answered with
  | admitted admitted => exact .inl (Constraint.nullish_of_admits admitted)
  | nullish _ _ _ nullish => exact .inl nullish
  | @transformed _ x _ _ _ outcome _ coerced _ defined transformed succeeded =>
    obtain ⟨items, _, listed, _⟩ := Transform.list_answers defined transformed succeeded
    obtain rfl := unmoved_of_listed coerced listed
    obtain ⟨_, built⟩ := (Transform.set_symbols_iff wanted listed).mp
      ⟨outcome, τ, transformed, succeeded, rfl⟩
    have inside := List.forall_mem_singleton.mp ((Definition.coerced_gives drawn).drawn coerced)
    have distinct (same : x = .set items) (unrepeated : v.Unrepeated) : Distinct items := by
      subst same
      exact distinct_of_coerced coerced unrepeated
    refine .inr ⟨x, items, _, coerced, listed, distinct, built.symm, ?_⟩
    refine symbolsOf_foldl fun item member => ?_
    have part : item ∈ x.parts := by
      cases x <;> cases listed <;> exact member
    refine Bool.eq_false_iff.mpr fun new => ?_
    obtain ⟨identity, description, rfl, reached⟩ := isSymbolFrom_eq_true new
    rcases drawn_symbol_iff.mp (inside.part part) with before | ⟨from_, until_⟩
    · exact absurd reached (Nat.not_le.mpr (old identity before))
    · exact absurd (from_.trans_lt until_) (lt_irrefl _)

/-- It is accepted if all that the elements are read as passes. -/
theorem set_of_symbols_accepted (wanted : e.coercion = some .symbol)
    (coerced : (d.coerced v).Answers σ x σ) (listed : x.elements = .ok items)
    (passes : d.constraint.violations x = .ok [])
    (checked : ∀ u ∈ asSymbols σ.nextSymbol items, e.constraint.violations u = .ok []) :
    ∃ kept τ, ((set d none (leaf e none)).safeParse v).Answers σ (.accepted (.set kept)) τ := by
  obtain ⟨outcome, τ, transformed, succeeded, same⟩ :=
    (Transform.set_symbols_iff wanted listed).mpr ⟨checked, rfl⟩
  have defined : x.isNullish = false := by cases x <;> first | rfl | cases listed
  have admitted : d.constraint.admits v = false := by
    refine Bool.eq_false_iff.mpr fun admitted => ?_
    have nullish := Constraint.nullish_of_admits admitted
    obtain ⟨_, kept⟩ := Definition.coerced_nullish nullish σ
    obtain ⟨rfl, _⟩ := coerced.unique kept
    rw [nullish] at defined
    cases defined
  have replied := Definition.answers_iff.mpr
    (.transformed admitted coerced passes defined transformed succeeded)
  rw [same] at replied
  exact ⟨(asSymbols σ.nextSymbol items).foldl addItem [], τ, replied⟩

end Schema

end Elements
end Schemata
