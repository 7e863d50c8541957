import Schemata.Regex.Token

/-! Regular expressions. Intervals are expanded while an expression is put together: each repetition
is a copy of its own, and every copy counts toward the number of states that an expression may
have. -/
namespace Schemata

inductive Regex where
  | empty
  | byte (accepts : Regex.ByteSet)
  | lineStart
  | lineEnd
  | wordBoundary (negated : Bool)
  | backreference (group : Nat)
  | group (index : Nat) (body : Regex)
  | lookahead (negated : Bool) (body : Regex)
  | seq (first second : Regex)
  | alt (first second : Regex)
  | optional (lazy : Bool) (body : Regex)
  | star (lazy : Bool) (body : Regex)
  | plus (lazy : Bool) (body : Regex)

namespace Regex

/-- How many states of an automaton the expression takes. -/
def states : Regex → Nat
  | empty | byte _ | lineStart | lineEnd | wordBoundary _ | backreference _ => 1
  | group _ body | lookahead _ body => body.states + 2
  | seq first second => first.states + second.states
  | alt first second => first.states + second.states + 2
  | optional _ body | star _ body | plus _ body => body.states + 1

def stateLimit : Nat := 100000

/-- One expression after the other, with the end of an alternative behind the last. -/
def sequence (terms : List Regex) : Regex := terms.foldr seq empty

def atMost (lazy : Bool) (body : Regex) : Nat → Regex
  | 0 => empty
  | n + 1 => optional lazy (seq body (atMost lazy body n))

/-- From `least` to `most` copies, or without end. -/
def repeated (lazy : Bool) (body : Regex) (least : Nat) (most : Option Nat) : Regex :=
  seq empty ((List.replicate least body).foldr seq (match most with
    | none => star lazy body
    | some most => atMost lazy body (most - least)))

/-- The states that `repeated` takes, without building it. -/
def repeatedStates (bodyStates least : Nat) : Option Nat → Nat
  | none => 1 + least * bodyStates + (bodyStates + 1)
  | some most => 1 + least * bodyStates + 1 + (most - least) * (bodyStates + 1)

/-- A parenthesis that is open: what has been read behind it. -/
structure Frame where
  kind : Opening
  /-- The number of the capture, where the parenthesis captures. -/
  index : Nat
  alternatives : Option Regex
  /-- The terms of the current alternative, the last first. -/
  terms : List Regex
  /-- Whether a quantifier may follow: the last term is no assertion. -/
  quantifiable : Bool

namespace Frame

def start (kind : Opening) (index : Nat) : Frame := ⟨kind, index, none, [], false⟩

def body (f : Frame) : Regex :=
  let last := sequence f.terms.reverse
  match f.alternatives with
  | none => last
  | some before => alt before last

def push (f : Frame) (term : Regex) (quantifiable : Bool) : Frame :=
  { f with terms := term :: f.terms, quantifiable := quantifiable }

def next (f : Frame) : Frame :=
  { f with alternatives := some f.body, terms := [], quantifiable := false }

end Frame

structure Progress where
  /-- The innermost open parenthesis, or the whole expression. -/
  frame : Frame
  outer : List Frame
  /-- How many captures have begun, the whole match as number 0 among them. -/
  captures : Nat
  /-- States of expressions that an interval has replaced by copies. -/
  replaced : Nat

namespace Progress

def start : Progress := ⟨.start .plain 0, [], 1, 0⟩

def openCaptures (p : Progress) : List Nat :=
  0 :: ((p.frame :: p.outer).filter fun f => f.kind == .capture).map Frame.index

def push (p : Progress) (term : Regex) (quantifiable : Bool) : Progress :=
  { p with frame := p.frame.push term quantifiable }

/-- Closes the innermost parenthesis; its content becomes a term of the one around it. -/
def close? (p : Progress) : Option Progress :=
  match p.outer with
  | [] => none
  | around :: outer =>
    let body := p.frame.body
    let around := match p.frame.kind with
      | .capture => around.push (group p.frame.index body) true
      | .plain => around.push (seq empty body) true
      | .lookahead negated => around.push (lookahead negated body) false
    some { p with frame := around, outer := outer }

/-- Replaces the last term, which must be there and be no assertion. -/
def quantify? (p : Progress) (change : Regex → Regex) : Option Progress :=
  match p.frame.quantifiable, p.frame.terms with
  | true, term :: terms =>
    some { p with frame := { p.frame with terms := change term :: terms } }
  | _, _ => none

/-- Repeats the last term within the limit of states. The term itself is left over, as every
repetition is a copy. -/
def repeat? (p : Progress) (lazy : Bool) (least : Nat) (most : Option Nat) : Option Progress :=
  match p.frame.quantifiable, p.frame.terms with
  | true, term :: _ =>
    let inOrder := match most with
      | none => true
      | some most => least ≤ most
    let replaced := p.replaced + term.states
    if inOrder && repeatedStates term.states least most + replaced ≤ stateLimit then
      { p with replaced := replaced }.quantify? fun term => repeated lazy term least most
    else none
  | _, _ => none

def openWith (p : Progress) (kind : Opening) : Progress :=
  { p with
    frame := .start kind p.captures
    outer := p.frame :: p.outer
    captures := if kind = .capture then p.captures + 1 else p.captures }

def refer? (p : Progress) (index : Nat) : Option Progress :=
  if index < p.captures && !p.openCaptures.contains index then
    some (p.push (backreference index) true)
  else none

/-- The whole expression, if no parenthesis is open and it takes no more states than allowed. -/
def finish? (p : Progress) : Option Regex :=
  let whole := p.frame.body
  if p.outer.isEmpty && whole.states + p.replaced + 3 ≤ stateLimit then some whole else none

/-- Reads tokens to the end. A question mark behind a quantifier makes it lazy. -/
def read? (p : Progress) : List Token → Option Regex
  | [] => p.finish?
  | .byte accepts :: rest => (p.push (Regex.byte accepts) true).read? rest
  | .backreference index :: rest => (p.refer? index).bind fun p => p.read? rest
  | .lineStart :: rest => (p.push Regex.lineStart false).read? rest
  | .lineEnd :: rest => (p.push Regex.lineEnd false).read? rest
  | .wordBoundary negated :: rest => (p.push (Regex.wordBoundary negated) false).read? rest
  | .opening kind :: rest => (p.openWith kind).read? rest
  | .closing :: rest => p.close?.bind fun p => p.read? rest
  | .bar :: rest => { p with frame := p.frame.next }.read? rest
  | .star :: .question :: rest => (p.quantify? (Regex.star true)).bind fun p => p.read? rest
  | .star :: rest => (p.quantify? (Regex.star false)).bind fun p => p.read? rest
  | .plus :: .question :: rest => (p.quantify? (Regex.plus true)).bind fun p => p.read? rest
  | .plus :: rest => (p.quantify? (Regex.plus false)).bind fun p => p.read? rest
  | .question :: .question :: rest =>
    (p.quantify? fun e => seq (Regex.optional true e) Regex.empty).bind fun p => p.read? rest
  | .question :: rest =>
    (p.quantify? fun e => seq (Regex.optional false e) Regex.empty).bind fun p => p.read? rest
  | .interval least most :: .question :: rest =>
    (p.repeat? true least most).bind fun p => p.read? rest
  | .interval least most :: rest => (p.repeat? false least most).bind fun p => p.read? rest

end Progress

def parse? (ignoreCase : Bool) (source : Text) : Option Regex :=
  (scan? ignoreCase source).bind Progress.start.read?

end Regex
end Schemata
