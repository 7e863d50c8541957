import Schemata.Fault

/-! What outlives a single call: the supply of symbols, each new one unlike all before, and the
trace. A trace line is kept only while tracing is on; a fault keeps what was traced before it. -/
namespace Schemata

/-- The state that calls share. Symbols below `nextSymbol` have been given out. -/
structure Session where
  nextSymbol : Nat := 0
  tracing : Bool := false
  /-- Trace lines, the latest first. -/
  trace : List Text := []

/-- A computation in a session that may be refused. -/
abbrev Run := ExceptT Fault (StateM Session)

namespace Session

/-- The trace as it is written: each line behind a tag. -/
def transcript (s : Session) : Text :=
  s.trace.reverse.flatMap fun line => Text.ofString "[cf] " ++ line ++ [10]

end Session

namespace Run

def freshSymbol (description : Text) : Run Value := do
  let s ← get
  set { s with nextSymbol := s.nextSymbol + 1 }
  return .symbol s.nextSymbol description

/-- Adds a line to the trace if tracing is on. -/
def trace (line : Text) : Run Unit :=
  modify fun s => if s.tracing then { s with trace := line :: s.trace } else s

/-- Passes on an answer or a fault that needs no session. -/
def lift (answer : Except Fault α) : Run α := ExceptT.mk (pure answer)

end Run
end Schemata
