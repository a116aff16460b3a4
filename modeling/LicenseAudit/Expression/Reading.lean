import LicenseAudit.Expression
import LicenseAudit.Expression.Token

/-!
# Reading an expression

An expression is read token by token.  A **reading** remembers, for every
parenthesis still open, the alternatives and the conjuncts gathered so
far, and what stands at the end: nothing yet, a word, a complete operand,
or a license that waits for its exception.  `advance` takes one token
further or says what is wrong with it, so that the first token that cannot
continue is the one reported; `conclude` says what a reading amounts to
when the text ends there.

`AND` binds tighter than `OR`, both group to the left, and `WITH` follows
a single license, which may stand in parentheses.
-/

namespace LicenseAudit.Expression

/-- The part of a group read so far: the alternatives before the last
`OR`, and the conjuncts after it before the last `AND`. -/
structure Group where
  alternatives : Option Expression
  conjuncts : Option Expression
  deriving DecidableEq, Repr

/-- A group of which nothing has been read. -/
def Group.new : Group :=
  ⟨none, none⟩

/-- The conjuncts so far together with one more. -/
def Group.conjoin (g : Group) (e : Expression) : Expression :=
  match g.conjuncts with
  | none => e
  | some left => .both left e

/-- The whole group, `e` being its last operand. -/
def Group.whole (g : Group) (e : Expression) : Expression :=
  match g.alternatives with
  | none => g.conjoin e
  | some left => .either left (g.conjoin e)

/-- What stands at the end of the text read so far. -/
inductive Ending where
  /-- An operand has to follow. -/
  | operator
  /-- An identifier, to which a plus sign may be attached. -/
  | word (id : String)
  /-- An operand to which an exception may be attached. -/
  | primary (e : Expression)
  /-- A license after which an exception has to follow. -/
  | awaiting (l : License)
  /-- An operand with its exception. -/
  | attached (e : Expression)
  deriving DecidableEq, Repr

/-- The operand that an ending is, when it is one. -/
def Ending.operand? : Ending → Option Expression
  | .word id => some (.license ⟨id, false⟩)
  | .primary e => some e
  | .attached e => some e
  | .operator => none
  | .awaiting _ => none

/-- A reading in progress: the innermost group, the groups around it, and
the ending. -/
structure Reading where
  group : Group
  outer : List Group
  ending : Ending
  deriving DecidableEq, Repr

/-- The reading of nothing. -/
def Reading.start : Reading :=
  ⟨.new, [], .operator⟩

/-- The complaint about a token that no operand can be followed by. -/
def Reading.surplus (r : Reading) (t : Token) : Fault :=
  if r.outer.isEmpty then .unexpected t else .missingClosing

/-- The reading after the operand `e` and the token `t`. -/
def Reading.continue (r : Reading) (e : Expression) (t : Token) : Except Fault Reading :=
  match t with
  | .and => .ok { r with group.conjuncts := some (r.group.conjoin e), ending := .operator }
  | .or => .ok { r with group := ⟨some (r.group.whole e), none⟩, ending := .operator }
  | .closing =>
    match r.outer with
    | [] => .error (.unexpected t)
    | g :: outer => .ok ⟨g, outer, .primary (r.group.whole e)⟩
  | _ => .error (r.surplus t)

/-- The reading with an exception announced after the operand `e`. -/
def Reading.announce (r : Reading) (e : Expression) : Except Fault Reading :=
  match e.single? with
  | some l => .ok { r with ending := .awaiting l }
  | none => .error .exceptionToGroup

/-- The reading one token further. -/
def Reading.advance (r : Reading) (t : Token) : Except Fault Reading :=
  match r.ending, t with
  | .operator, .word id => .ok { r with ending := .word id }
  | .operator, .opening => .ok ⟨.new, r.group :: r.outer, .operator⟩
  | .operator, t => .error (.unexpected t)
  | .awaiting l, .word id => .ok { r with ending := .attached (.withException l id) }
  | .awaiting _, _ => .error .missingException
  | .word id, .plus => .ok { r with ending := .primary (.license ⟨id, true⟩) }
  | .word id, .with => r.announce (.license ⟨id, false⟩)
  | .primary e, .with => r.announce e
  | .word id, t => r.continue (.license ⟨id, false⟩) t
  | .primary e, t => r.continue e t
  | .attached e, t => r.continue e t

/-- What a reading amounts to when nothing follows. -/
def Reading.conclude (r : Reading) : Except Fault Expression :=
  match r.ending with
  | .operator => .error .unexpectedEnd
  | .awaiting _ => .error .missingException
  | .word id => finish (.license ⟨id, false⟩)
  | .primary e => finish e
  | .attached e => finish e
where
  /-- The expression whose last operand is `e`, if no group is open. -/
  finish (e : Expression) : Except Fault Expression :=
    if r.outer.isEmpty then .ok (r.group.whole e) else .error .missingClosing

/-- The expression that the tokens `ts` complete, the text ending at
`size`. -/
def Reading.run (size : Nat) (r : Reading) : List Placed → Except SyntaxError Expression
  | [] => r.conclude.mapError (⟨·, size⟩)
  | t :: ts =>
    match r.advance t.token with
    | .ok r' => r'.run size ts
    | .error fault => .error ⟨fault, t.position⟩

/-- The expression that a text spells. -/
def parse (text : String) : Except SyntaxError Expression :=
  match tokens text.toList with
  | .error e => .error e
  | .ok [] => .error ⟨.empty, 0⟩
  | .ok ts => Reading.start.run (Text.size text.toList) ts

end LicenseAudit.Expression
