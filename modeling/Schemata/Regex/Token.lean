import Schemata.Regex.ByteClass

/-! Tokens of regular expressions. Scanning settles all that concerns single bytes: escapes, bracket
expressions and whether case is ignored end in sets of bytes, and an interval is one token. A text
that is no sequence of tokens has none. -/
namespace Schemata.Regex

inductive Opening where
  | capture
  | plain
  | lookahead (negated : Bool)
deriving DecidableEq

inductive Token where
  | byte (accepts : ByteSet)
  | backreference (group : Nat)
  | lineStart
  | lineEnd
  | wordBoundary (negated : Bool)
  | opening (kind : Opening)
  | closing
  | bar
  | star
  | plus
  | question
  | interval (least : Nat) (most : Option Nat)

/-- What a backslash and the bytes after it stand for. -/
inductive Escape where
  | byte (b : UInt8)
  | set (accepts : ByteSet) (negated : Bool)
  | wordBoundary (negated : Bool)
  | backreference (group : Nat)

/-- The number of `n` hexadecimal digits, modulo 256. -/
def hexByte? (n : Nat) (t : Text) : Option (UInt8 × Text) :=
  let digits := t.take n
  if digits.length = n ∧ digits.all ByteSet.isHexDigit then
    let digit (b : UInt8) : Nat :=
      if Text.isDigit b then b.toNat - 48 else (Text.lowerByte b).toNat - 87
    some (UInt8.ofNat (digits.foldl (fun v b => v * 16 + digit b) 0), t.drop n)
  else none

/-- The escapes of one letter for a byte that is hard to type. -/
def controlEscape? (b : UInt8) : Option UInt8 :=
  [(48, 0), (98, 8), (102, 12), (110, 10), (114, 13), (116, 9), (118, 11)].lookup b

/-- The escapes of one letter for a set: its name in lower case, or in upper case for all other
bytes. -/
def setEscape? (b : UInt8) : Option ByteSet :=
  [(100, (Text.isDigit : ByteSet)), (115, Text.isSpace), (119, ByteSet.isWord)].lookup b

/-- The escape behind a backslash. Inside brackets `b` is a backspace and not a boundary; a letter
without a meaning stands for itself. -/
def escape? (inBrackets : Bool) : Text → Option (Escape × Text)
  | [] => none
  | b :: t =>
    if b = 98 && !inBrackets then some (.wordBoundary false, t)
    else match controlEscape? b with
      | some c => some (.byte c, t)
      | none =>
        if b = 66 then some (.wordBoundary true, t)
        else match setEscape? (Text.lowerByte b) with
          | some accepts => some (.set accepts (ByteSet.isUpper b), t)
          | none =>
            if b = 99 then
              match t with
              | [] => none
              | c :: t => some (.byte c, t)
            else if b = 120 then (hexByte? 2 t).map fun (c, t) => (.byte c, t)
            else if b = 117 then (hexByte? 4 t).map fun (c, t) => (.byte c, t)
            else if Text.isDigit b then
              some (.backreference (Text.toNat (b :: t.takeWhile Text.isDigit)),
                t.dropWhile Text.isDigit)
            else some (.byte b, t)

inductive BracketItem where
  | close
  | dash
  | byte (b : UInt8)
  | symbol (b : UInt8)
  | set (accepts : ByteSet)

/-- The name before a delimiter and a closing bracket, and the text behind them. -/
def bracketName? (delimiter : UInt8) (t : Text) : Option (Text × Text) :=
  match t.dropWhile (· != delimiter) with
  | _ :: 93 :: rest => some (t.takeWhile (· != delimiter), rest)
  | _ => none

def bracketItem? (ignoreCase : Bool) : Text → Option (BracketItem × Text)
  | [] => none
  | b :: t =>
    if b = 93 then some (.close, t)
    else if b = 45 then some (.dash, t)
    else if b = 92 then
      match escape? true t with
      | some (.byte c, t) => some (.byte c, t)
      | some (.set accepts negated, t) =>
        some (.set (if negated then accepts.complement else accepts), t)
      | _ => none
    else if b = 91 then
      match t with
      | [] => none
      | d :: t =>
        if d = 46 then do
          let (name, t) ← bracketName? 46 t
          some (.symbol (← byteOfSymbol? name), t)
        else if d = 58 then do
          let (name, t) ← bracketName? 58 t
          some (.set (← classOfName? ignoreCase name), t)
        else if d = 61 then do
          let (name, t) ← bracketName? 61 t
          some (.set (ByteSet.equivalent (← byteOfSymbol? name)), t)
        else some (.byte 91, d :: t)
    else some (.byte b, t)

/-- All parts of a bracket expression up to the closing bracket, and the text behind that. Every
part takes at least one byte, so as many steps as there are bytes are enough. -/
def bracketItems? (ignoreCase : Bool) : Nat → Text → Option (List BracketItem × Text)
  | 0, _ => none
  | n + 1, t =>
    match bracketItem? ignoreCase t with
    | none => none
    | some (.close, t) => some ([], t)
    | some (item, t) => (bracketItems? ignoreCase n t).map fun (items, t) => (item :: items, t)

/-- What stands before the place reached in a bracket expression: nothing that a dash could extend,
a byte that may begin a range, or a set, which may not. -/
inductive BracketPending where
  | nothing
  | byte (b : UInt8)
  | set

namespace BracketPending

/-- Adds a byte that will begin no range. -/
def flush (ignoreCase : Bool) (pending : BracketPending) (accepts : ByteSet) : ByteSet :=
  match pending with
  | byte b => accepts.union (.single ignoreCase b)
  | _ => accepts

end BracketPending

/-- The set of a bracket expression. A dash stands for itself at the beginning, at the end and
behind a range; behind a set it is an error, and so is a range whose bounds are not in order or not
bytes. -/
def bracketSet? (ignoreCase : Bool) :
    BracketPending → ByteSet → List BracketItem → Option ByteSet
  | pending, accepts, [] => some (pending.flush ignoreCase accepts)
  | pending, accepts, .byte b :: items | pending, accepts, .symbol b :: items =>
    bracketSet? ignoreCase (.byte b) (pending.flush ignoreCase accepts) items
  | pending, accepts, .set more :: items =>
    bracketSet? ignoreCase .set ((pending.flush ignoreCase accepts).union more) items
  | pending, accepts, [.dash] =>
    some ((pending.flush ignoreCase accepts).union (.single ignoreCase 45))
  | .set, _, .dash :: _ => none
  | .nothing, accepts, .dash :: items => bracketSet? ignoreCase (.byte 45) accepts items
  | .byte first, accepts, .dash :: .byte last :: items =>
    if signedByte first ≤ signedByte last then
      bracketSet? ignoreCase .nothing (accepts.union (.range ignoreCase first last)) items
    else none
  | .byte first, accepts, .dash :: .dash :: items =>
    if signedByte first ≤ signedByte 45 then
      bracketSet? ignoreCase .nothing (accepts.union (.range ignoreCase first 45)) items
    else none
  | .byte _, _, .dash :: _ => none
  | _, _, .close :: _ => none

def bracket? (ignoreCase : Bool) (t : Text) : Option (ByteSet × Text) := do
  let (negated, t) := match t with
    | 94 :: t => (true, t)
    | t => (false, t)
  let (items, rest) ← bracketItems? ignoreCase t.length t
  let accepts ← match items with
    | .dash :: items => bracketSet? ignoreCase (.byte 45) (fun _ => false) items
    | items => bracketSet? ignoreCase .nothing (fun _ => false) items
  some (if negated then accepts.complement else accepts, rest)

def count? (t : Text) : Option (Nat × Text) :=
  let digits := t.takeWhile Text.isDigit
  if digits.isEmpty then none else some (Text.toNat digits, t.dropWhile Text.isDigit)

def interval? (t : Text) : Option (Token × Text) := do
  let (least, t) ← count? t
  match t with
  | 125 :: t => some (.interval least (some least), t)
  | 44 :: 125 :: t => some (.interval least none, t)
  | 44 :: t => do
    let (most, t) ← count? t
    some (.interval least (some most), ← t.skip? 125)
  | _ => none

def opening? : Text → Option (Token × Text)
  | 63 :: 58 :: t => some (.opening .plain, t)
  | 63 :: 61 :: t => some (.opening (.lookahead false), t)
  | 63 :: 33 :: t => some (.opening (.lookahead true), t)
  | 63 :: _ => none
  | t => some (.opening .capture, t)

/-- The first token of a text that is not empty. -/
def token? (ignoreCase : Bool) (b : UInt8) (t : Text) : Option (Token × Text) :=
  if b = 92 then
    match escape? false t with
    | some (.byte c, t) => some (.byte (.single ignoreCase c), t)
    | some (.set accepts negated, t) =>
      some (.byte (if negated then accepts.complement else accepts), t)
    | some (.wordBoundary negated, t) => some (.wordBoundary negated, t)
    | some (.backreference group, t) => some (.backreference group, t)
    | none => none
  else if b = 40 then opening? t
  else if b = 41 then some (.closing, t)
  else if b = 91 then (bracket? ignoreCase t).map fun (accepts, t) => (.byte accepts, t)
  else if b = 123 then interval? t
  else if b = 94 then some (.lineStart, t)
  else if b = 36 then some (.lineEnd, t)
  else if b = 46 then some (.byte .notLineEnd, t)
  else if b = 42 then some (.star, t)
  else if b = 43 then some (.plus, t)
  else if b = 63 then some (.question, t)
  else if b = 124 then some (.bar, t)
  else some (.byte (.single ignoreCase b), t)

/-- The tokens of a text, at most `n` of them. -/
def tokens? (ignoreCase : Bool) : Nat → Text → Option (List Token)
  | _, [] => some []
  | 0, _ => none
  | n + 1, b :: t =>
    match token? ignoreCase b t with
    | none => none
    | some (token, rest) => (tokens? ignoreCase n rest).map (token :: ·)

/-- The tokens of a whole text; each takes at least one byte. -/
def scan? (ignoreCase : Bool) (t : Text) : Option (List Token) := tokens? ignoreCase t.length t

end Schemata.Regex
