import Schemata.Regex.Basic

/-! Backtracking search. A match runs through an expression in continuation style: `run` tries to
match at a place of the text and then asks the continuation. The first way that succeeds decides, so
the captures a lookahead keeps are those of its first way. Two rules go beyond plain backtracking. A
quantifier may start its body at one place of the text at most twice, whatever lies between, which
ends loops whose body matches nothing. And what a lookahead captured stays captured while other ways
are tried after it. -/
namespace Schemata.Regex

/-- Where a quantifier stands in an expression: the turns that lead to it, innermost first. -/
abbrev Place := List Bool

abbrev Captures := Nat → Option Text

def Captures.none : Captures := fun _ => Option.none

def Captures.set (captures : Captures) (index : Nat) (content : Option Text) : Captures :=
  fun i => if i = index then content else captures i

/-- What stays fixed while one expression is matched from one place of the text. -/
structure Scope where
  ignoreCase : Bool
  /-- The offset that counts as the beginning. -/
  origin : Nat
  /-- Whether text before the beginning is looked at; then it is not the beginning of a line. -/
  preceded : Bool

structure Trail where
  offset : Nat
  previous : Option UInt8
  rest : Text
  captures : Captures
  /-- For each quantifier, the offset at which its body started last, and how often it started
  there. -/
  visits : List (Place × Nat × Nat)

/-- Whether a way through was found, with the captures at its end, or else with those that stay. -/
inductive Verdict where
  | found (captures : Captures)
  | refused (captures : Captures)

namespace Trail

def start (offset : Nat) (previous : Option UInt8) (rest : Text) : Trail :=
  ⟨offset, previous, rest, .none, []⟩

def withCaptures (t : Trail) (captures : Captures) : Trail := { t with captures := captures }

def refuse (t : Trail) : Verdict := .refused t.captures

def advance (t : Trail) (b : UInt8) (rest : Text) : Trail :=
  { t with offset := t.offset + 1, previous := some b, rest := rest }

def advanceOver (t : Trail) (content : Text) (rest : Text) : Trail :=
  { t with
    offset := t.offset + content.length
    previous := if content.isEmpty then t.previous else content.getLast?
    rest := rest }

def atStart (t : Trail) (scope : Scope) : Bool := t.offset == scope.origin && !scope.preceded

def atWordBoundary (t : Trail) (scope : Scope) : Bool :=
  let before := (t.offset != scope.origin || scope.preceded) && t.previous.any ByteSet.isWord
  let behind := t.rest.head?.any ByteSet.isWord
  before != behind

/-- Counts a start of the body of the quantifier at `place`, if it may start here. -/
def enter? (t : Trail) (place : Place) : Option Trail :=
  let times := match t.visits.lookup place with
    | some (offset, times) => if offset = t.offset then times else 0
    | none => 0
  if times < 2 then
    some { t with visits := (place, t.offset, times + 1) :: t.visits.filter (·.1 != place) }
  else none

end Trail

/-- The second way after the first was refused; the captures that stay go on to it. -/
def Verdict.orElse (first : Verdict) (second : Captures → Verdict) : Verdict :=
  match first with
  | found captures => .found captures
  | refused captures => second captures

/-- Goes on after a capture has ended. If that is refused, the capture is what it was before. -/
def endCapture (index : Nat) (content : Text) (k : Trail → Verdict) (t : Trail) : Verdict :=
  match k (t.withCaptures (t.captures.set index (some content))) with
  | .found captures => .found captures
  | .refused captures => .refused (captures.set index (t.captures index))

/-- Once more through the body or on without it, in the order that laziness demands. -/
def onceMore (lazy : Bool) (place : Place) (more less : Trail → Verdict) (t : Trail) : Verdict :=
  let enter (t : Trail) : Verdict :=
    match t.enter? place with
    | some entered => more entered
    | none => t.refuse
  if lazy then (less t).orElse fun captures => enter (t.withCaptures captures)
  else (enter t).orElse fun captures => less (t.withCaptures captures)

/-- Through a body as often as it may start, at most `n` times. -/
def iterate (lazy : Bool) (place : Place) (body : (Trail → Verdict) → Trail → Verdict)
    (k : Trail → Verdict) : Nat → Trail → Verdict
  | 0 => k
  | n + 1 => onceMore lazy place (body (iterate lazy place body k n)) k

/-- How often a body can start before a text ends: twice at each of its places. -/
def startsWithin (rest : Text) : Nat := 2 * (rest.length + 1)

/-- The text after a captured one, if the captured one is repeated there. -/
def repeats? (ignoreCase : Bool) : Text → Text → Option Text
  | [], t => some t
  | _ :: _, [] => none
  | c :: content, b :: t =>
    if (if ignoreCase then Text.lowerByte c = Text.lowerByte b else c = b) then
      repeats? ignoreCase content t
    else none

/-- Matches an expression and goes on with `k`. -/
def run (scope : Scope) : Regex → Place → (Trail → Verdict) → Trail → Verdict
  | empty, _, k, t => k t
  | byte accepts, _, k, t =>
    match t.rest with
    | [] => t.refuse
    | b :: rest => if accepts b then k (t.advance b rest) else t.refuse
  | lineStart, _, k, t => if t.atStart scope then k t else t.refuse
  | lineEnd, _, k, t => if t.rest.isEmpty then k t else t.refuse
  | wordBoundary negated, _, k, t =>
    if t.atWordBoundary scope != negated then k t else t.refuse
  | backreference index, _, k, t =>
    match t.captures index with
    | none => t.refuse
    | some content =>
      match repeats? scope.ignoreCase content t.rest with
      | some rest => k (t.advanceOver (t.rest.take content.length) rest)
      | none => t.refuse
  | group index body, place, k, t =>
    run scope body (true :: place)
      (fun inner =>
        endCapture index (t.rest.take (t.rest.length - inner.rest.length)) k inner) t
  | lookahead negated body, place, k, t =>
    let ahead := run { scope with origin := t.offset } body (true :: place)
      (fun inner => .found inner.captures) { t with visits := [] }
    match ahead with
    | .found captures => if negated then .refused captures else k (t.withCaptures captures)
    | .refused _ => if negated then k t else t.refuse
  | seq first second, place, k, t =>
    run scope first (true :: place) (run scope second (false :: place) k) t
  | alt first second, place, k, t =>
    (run scope first (true :: place) k t).orElse fun captures =>
      run scope second (false :: place) k (t.withCaptures captures)
  | optional lazy body, place, k, t =>
    onceMore lazy place (run scope body (true :: place) k) k t
  | star lazy body, place, k, t =>
    iterate lazy place (run scope body (true :: place)) k (startsWithin t.rest) t
  | plus lazy body, place, k, t =>
    run scope body (true :: place)
      (fun t => iterate lazy place (run scope body (true :: place)) k (startsWithin t.rest) t) t

/-- Whether a match begins at the beginning of `t`, which lies at `offset` behind `previous`. -/
def matchesAt (ignoreCase : Bool) (e : Regex) (offset : Nat) (previous : Option UInt8)
    (t : Text) : Bool :=
  match run ⟨ignoreCase, offset, offset != 0⟩ e [] (fun inner => .found inner.captures)
    (.start offset previous t) with
  | .found _ => true
  | .refused _ => false

def searchFrom (ignoreCase : Bool) (e : Regex) (offset : Nat) (previous : Option UInt8) :
    Text → Bool
  | [] => matchesAt ignoreCase e offset previous []
  | b :: t =>
    matchesAt ignoreCase e offset previous (b :: t) ||
      searchFrom ignoreCase e (offset + 1) (some b) t

def search (ignoreCase : Bool) (e : Regex) (t : Text) : Bool := searchFrom ignoreCase e 0 none t

end Schemata.Regex
