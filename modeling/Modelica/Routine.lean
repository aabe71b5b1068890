import Modelica.Builder

/-!
# Routines of a parser

A recursive descent parser drives the builder call by call: a node is started and finished, a
context pushed and popped, a block opened and closed, a level entered and left by calls that stand
apart, and a routine may return early or break out of a loop between them. `Routine` has programs
of such calls. Nothing in it makes them come in pairs.

* `Action`: the calls that work on the builder, and what each does (`Action.apply`);
* `Routine`: programs of actions, of calls of the named rules, and of loops;
* the steps that all rules share, from `eat` to `repeatUntil`.
-/

namespace Modelica

/-- A call that works on the builder, with the type of its answer. -/
inductive Action : Type → Type where
  | look : Action Lookahead
  | bump : Action Unit
  | report (fault : Diagnostic Spot) : Action Unit
  | startNode (kind : Kind) : Action Unit
  /-- Mark the place where the next node would start. -/
  | checkpoint : Action Nat
  | startNodeAt (mark : Nat) (kind : Kind) : Action Unit
  | finishNode : Action Unit
  | pushContext (context : Context) : Action Unit
  | popContext : Action Unit
  | openConstruct (block : OpenConstruct) : Action Unit
  | closeConstruct : Action Unit
  /-- Go one level deeper; the answer is whether the bound allows it. -/
  | enterNesting : Action Bool
  | exitNesting : Action Unit

/-- What an action answers and makes of the builder, unless it trips. -/
def Action.apply {β : Type} (action : Action β) (b : Builder) : Option (β × Builder) :=
  match action with
  | look => some (b.look, b)
  | bump => b.read.map ((), ·)
  | report fault => some ((), b.report fault)
  | startNode kind => b.flushLeading.map fun m => ((), m.openNode kind)
  | checkpoint => b.flushLeading.map fun m => (m.finished.length, m)
  | startNodeAt mark kind => (b.openAt mark kind).map ((), ·)
  | finishNode => b.close.map ((), ·)
  | pushContext context => some ((), b.pushContext context)
  | popContext => b.popContext.map ((), ·)
  | openConstruct block => some ((), b.pushConstruct block)
  | closeConstruct => b.popConstruct.map ((), ·)
  | enterNesting => some (decide (b.depth + 1 ≤ b.limit), b.enter)
  | exitNesting => b.leave.map ((), ·)

/-- A program of calls that ends with a value. A loop goes from turn to turn with what it has in
its variables. -/
inductive Routine : Type → Type 1 where
  | ret {α : Type} (value : α) : Routine α
  | act {α β : Type} (action : Action β) (next : β → Routine α) : Routine α
  | call {α : Type} (rule : Nonterminal) (next : Unit → Routine α) : Routine α
  | loop {α σ : Type} (vars : σ) (turn : σ → Routine (ForInStep σ)) (next : σ → Routine α) :
      Routine α

namespace Routine

def bind {α β : Type} : Routine α → (α → Routine β) → Routine β
  | ret value, f => f value
  | act action next, f => act action fun x => (next x).bind f
  | call rule next, f => call rule fun x => (next x).bind f
  | loop vars turn next, f => loop vars turn fun s => (next s).bind f

instance : Monad Routine where
  pure := ret
  bind := bind

/-- What an endless loop runs over; it is left by `break` and `return`. -/
structure Forever where

def forever : Forever := ⟨⟩

instance : ForIn Routine Forever Unit where
  forIn _ vars turn := loop vars (turn ()) ret

def look : Routine Lookahead := act .look ret

def bump : Routine Unit := act .bump ret

def report (fault : Diagnostic Spot) : Routine Unit := act (.report fault) ret

def startNode (kind : Kind) : Routine Unit := act (.startNode kind) ret

def checkpoint : Routine Nat := act .checkpoint ret

def startNodeAt (mark : Nat) (kind : Kind) : Routine Unit := act (.startNodeAt mark kind) ret

def finishNode : Routine Unit := act .finishNode ret

def pushContext (context : Context) : Routine Unit := act (.pushContext context) ret

def popContext : Routine Unit := act .popContext ret

def openConstruct (block : OpenConstruct) : Routine Unit := act (.openConstruct block) ret

def closeConstruct : Routine Unit := act .closeConstruct ret

def enterNesting : Routine Bool := act .enterNesting ret

def exitNesting : Routine Unit := act .exitNesting ret

def rule (rule : Nonterminal) : Routine Unit := call rule ret

def sees (k : Kind) : Routine Bool := return (← look).sees k

def seesAny (ks : List Kind) : Routine Bool := return (← look).seesAny ks

def atEnd : Routine Bool := return (← look).atEnd

/-- Read a token of one kind if it comes next, and say whether it did. -/
def ate (k : Kind) : Routine Bool := do
  if (← sees k) then
    bump
    return true
  return false

def eat (k : Kind) : Routine Unit := do
  let _ ← ate k

/-- Report an error at the next token. -/
def error (code : Code) (message : String) : Routine Unit := do
  let v ← look
  report { Diagnostic.ofCode code v.index with message, found := v.found }

/-- Report that one of some kinds should have come next. -/
def errorExpected (code : Code) (expected : List Kind) : Routine Unit := do
  let v ← look
  report { Diagnostic.ofCode code v.index with
    message := Diagnostic.expectedMessage expected v.found v.context, expected, found := v.found }

/-- Read a token of one kind or report that it is missing, and say which. -/
def expected (k : Kind) : Routine Bool := do
  if (← sees k) then
    bump
    return true
  errorExpected (Production.missingCode k) [k]
  return false

def expect (k : Kind) : Routine Unit := do
  let _ ← expected k

/-- Repeat `body` while the test holds. A turn is told what the one before it began with. -/
def repeatWhile (test : Lookahead → Bool) (body : Option Lookahead → Routine Unit) :
    Routine Unit := do
  let mut before := none
  for _ in forever do
    let v ← look
    if !test v then
      break
    body before
    before := some v

/-- `item (separator item)*` -/
def separated (separator : Kind) (item : Routine Unit) : Routine Unit := do
  item
  repeatWhile (·.sees separator) fun _ => do
    bump
    item

def withContext (context : Context) (body : Routine Unit) : Routine Unit := do
  pushContext context
  body
  popContext

/-- Report an error and put tokens up to one of the recovery set under an `error` node. -/
def errorRecover (code : Code) (message : String) (recovery : List Kind) : Routine Unit := do
  error code message
  if (← atEnd) then
    return
  startNode .error
  bump
  repeatWhile (fun v => !v.atEnd && !v.seesAny recovery) fun _ => bump
  finishNode

/-- Repeat an item until `stop` holds or the input ends; where it reads nothing, what comes next is
skipped as an error. -/
def repeatUntil (stop : Lookahead → Bool) (item : Routine Unit) : Routine Unit :=
  repeatWhile (fun v => !v.atEnd && !stop v) fun _ => do
    let start ← look
    item
    let v ← look
    if v.index = start.index ∧ !v.atEnd then
      errorRecover .unexpectedToken
        ("unexpected " ++ v.kind.displayName ++ " " ++ v.context.description) []

/-- Report an error and skip through the next `;`, stopping early at a section boundary. -/
def recoverThroughSemicolon (code : Code) (message : String) : Routine Unit := do
  error code message
  let start ← look
  if start.atEnd then
    return
  startNode .error
  for _ in forever do
    if (← atEnd) then
      break
    if (← ate .semicolon) then
      break
    let v ← look
    if v.index != start.index && v.atSectionBoundary then
      break
    bump
  finishNode

/-- Skip what is nested beyond the bound, up to the bracket that closes it. -/
def skipNested : Routine Unit := do
  error .nestedTooDeep Code.nestedTooDeep.defaultMessage
  startNode .error
  let mut depth := 0
  for _ in forever do
    let v ← look
    if v.ahead.isEmpty then
      break
    match v.kind with
    | .lParen | .lBracket | .lBrace => depth := depth + 1
    | .rParen | .rBracket | .rBrace =>
      if depth = 0 then
        break
      depth := depth - 1
    | .semicolon =>
      if depth = 0 then
        break
    | _ => pure ()
    bump
  finishNode

end Routine

end Modelica
