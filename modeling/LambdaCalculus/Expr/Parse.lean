import LambdaCalculus.Diagnostic
import LambdaCalculus.Expr
import LambdaCalculus.Token.Scan

/-! # Parsing expressions

Adjacent terms are applied from left to right, and the body of an abstraction extends as far right
as possible: to the end of the enclosing group, or of the text.

Parsing never stops at an error.  An unexpected token is skipped, the missing part of an abstraction
is assumed, and groups still open at the end of the text are closed there.  The reader is one pass
over the tokens with a stack of open groups.
-/
namespace LambdaCalculus

namespace Expr

/-- An abstraction whose body is being read, with the terms before it. -/
structure Opened where
  before : Expr
  binder : Token
  parameter : Option Token
  deriving DecidableEq, Repr

/-- An expression being read: its open abstractions, innermost first, and the terms of the innermost
body.  An empty group adds no term to the tree; it is recorded in `hasTerm`. -/
structure Level where
  opened : List Opened
  terms : Expr
  hasTerm : Bool
  deriving DecidableEq, Repr

namespace Level

def start : Level := ⟨[], .empty, false⟩

def add (l : Level) (e : Expr) : Level := { l with terms := l.terms.apply e, hasTerm := true }

def enter (l : Level) (binder : Token) (parameter : Option Token) : Level :=
  ⟨⟨l.terms, binder, parameter⟩ :: l.opened, .empty, false⟩

def close (l : Level) : Expr :=
  l.opened.foldl (fun body o => o.before.apply (.lambda o.binder o.parameter body)) l.terms

end Level

inductive Header where
  | none
  | binder (binder : Token)
  | parameter (binder : Token) (parameter : Option Token)
  deriving DecidableEq, Repr

/-- The expression being read, the groups around it with the tokens that opened them, innermost
first, and the header in progress. -/
structure Reader where
  level : Level
  groups : List (Token × Level)
  header : Header
  deriving DecidableEq, Repr

namespace Reader

def start : Reader := ⟨.start, [], .none⟩

def enter (r : Reader) (binder : Token) (parameter : Option Token) : Reader :=
  ⟨r.level.enter binder parameter, r.groups, .none⟩

def accept (r : Reader) (t : Token) : Reader :=
  match t.kind with
  | .identifier => { r with level := r.level.add (.var t) }
  | .binder => { r with header := .binder t }
  | .groupOpen => { r with level := .start, groups := (t, r.level) :: r.groups }
  | .groupClose =>
    match r.groups with
    | [] => r
    | (_, outer) :: groups => { r with level := outer.add r.level.close, groups := groups }
  | .bodyDelimiter | .endOfFile => r

def complain (r : Reader) (t : Token) : List Diagnostic :=
  match t.kind with
  | .identifier | .binder | .groupOpen => []
  | .groupClose =>
    match r.groups with
    | [] => [.unexpected t]
    | _ :: _ => if r.level.hasTerm then [] else [.emptyExpression t]
  | .bodyDelimiter | .endOfFile => [.unexpected t]

/-- Reads a token.  One that does not continue the header ends it, and is then read as part of the
body. -/
def next (r : Reader) (t : Token) : Reader :=
  match r.header with
  | .none => r.accept t
  | .binder b =>
    match t.kind with
    | .identifier => { r with header := .parameter b (some t) }
    | .bodyDelimiter => r.enter b none
    | _ => (r.enter b none).accept t
  | .parameter b p =>
    match t.kind with
    | .bodyDelimiter => r.enter b p
    | _ => (r.enter b p).accept t

def emit (r : Reader) (t : Token) : List Diagnostic :=
  match r.header with
  | .none => r.complain t
  | .binder b =>
    match t.kind with
    | .identifier => []
    | .bodyDelimiter => [.missingParameter t]
    | _ => .missingParameter t :: .missingDelimiter t :: (r.enter b none).complain t
  | .parameter b p =>
    match t.kind with
    | .bodyDelimiter => []
    | _ => .missingDelimiter t :: (r.enter b p).complain t

def transducer : Transducer Reader Token Diagnostic := ⟨next, emit⟩

/-- The reader with the header in progress taken as complete. -/
def settle (r : Reader) : Reader :=
  match r.header with
  | .none => r
  | .binder b => r.enter b none
  | .parameter b p => r.enter b p

def finish (r : Reader) : Expr :=
  r.settle.groups.foldl (fun e group => (group.2.add e).close) r.settle.level.close

def headerAtEnd (r : Reader) (eof : Token) : List Diagnostic :=
  match r.header with
  | .none => []
  | .binder _ => [.missingParameter eof, .missingDelimiter eof]
  | .parameter .. => [.missingDelimiter eof]

/-- One diagnostic for each open group, innermost first. -/
def groupsAtEnd (r : Reader) (eof : Token) : List Diagnostic :=
  match r.groups with
  | [] => if r.level.hasTerm then [] else [.emptyExpression eof]
  | groups => groups.map fun group => .unclosedGroup group.1 (.unexpected eof)

def atEnd (r : Reader) (eof : Token) : List Diagnostic :=
  r.headerAtEnd eof ++ r.settle.groupsAtEnd eof

end Reader

structure Parsed where
  expr : Expr
  diagnostics : List Diagnostic
  deriving DecidableEq, Repr

def ofTokens (s : Token.Scanned) : Parsed :=
  let final := Reader.transducer.reach .start s.tokens
  ⟨final.finish, Reader.transducer.output .start s.tokens ++ final.atEnd s.endOfFile⟩

def parse (source : String) : Parsed := ofTokens (Token.scan source)

end Expr

end LambdaCalculus
