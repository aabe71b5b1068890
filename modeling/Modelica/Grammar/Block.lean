import Modelica.Grammar.Name

/-!
# Blocks

`if`, `when` and `for` have the same shape among equations and among statements; only the node
kinds and the items differ (`Family`). A clause attaches to the innermost open block, and an `end`
that closes a block further out is left for it (`blockEnd`).
-/

namespace Modelica

namespace Family

def ifKind : Family → Kind
  | .equations => .ifEquation
  | .statements => .ifStatement

def elseIfKind : Family → Kind
  | .equations => .elseIfEquationClause
  | .statements => .elseIfStatementClause

def elseKind : Family → Kind
  | .equations => .elseEquationClause
  | .statements => .elseStatementClause

def whenKind : Family → Kind
  | .equations => .whenEquation
  | .statements => .whenStatement

def elseWhenKind : Family → Kind
  | .equations => .elseWhenEquationClause
  | .statements => .elseWhenStatementClause

def forKind : Family → Kind
  | .equations => .forEquation
  | .statements => .forStatement

end Family

namespace Grammar

open Production

/-- The keyword that a kind stands for, without quotes around it. -/
def keywordText (k : Kind) : String := k.spelling?.getD k.displayName

/-- Report that the `end` of a block is missing. -/
def missingBlockEnd (keyword : Kind) (opened : Spot) : Production :=
  look fun v => report { Diagnostic.ofCode .missingEnd v.index with
    message := "expected `end " ++ keywordText keyword ++ "`, found " ++ Kind.foundName v.found ++
      " " ++ v.context.description,
    expected := [.endKw], found := v.found,
    related := [⟨"`" ++ keywordText keyword ++ "` opened here", opened⟩] }

/-- An `end` belongs to something around the block: to the class, or to a block that is open. -/
def endClaimedOutside (v : Lookahead) : Bool :=
  !v.atBlockEnd || v.constructs.any fun block => block.construct.endKeyword == v.nth 1

/-- The `end` of a block, then `next`. When the `end` is missing or belongs to something around the
block, it is reported and nothing is read. -/
def blockEnd (construct : Construct) (opened : Spot) (next : Production) : Production :=
  let keyword := construct.endKeyword
  look fun v =>
    if !v.sees .endKw then missingBlockEnd keyword opened
    else if v.nth 1 = keyword then seq [shifts 2, next]
    else if endClaimedOutside v then missingBlockEnd keyword opened
    else seq [
      report { Diagnostic.ofCode .mismatchedEnd v.index with
        message := "expected `end " ++ keywordText keyword ++ "`, found `end " ++
          keywordText (v.nth 1) ++ "`",
        expected := [keyword], found := some (v.nth 1),
        related := [⟨"`" ++ keywordText keyword ++ "` opened here", opened⟩] },
      shifts 2,
      next]

/-- `'end' keyword DescriptionString? AnnotationClause? ';'` -/
def finishBlock (construct : Construct) (opened : Spot) : Production :=
  blockEnd construct opened (seq [call .comment, expect .semicolon])

/-- An `end if` and the like where no such block is open. -/
def strayEnd : Production :=
  look fun v => seq [
    fault .mismatchedEnd ("`end " ++ keywordText (v.nth 1) ++ "` without an open `" ++
      keywordText (v.nth 1) ++ "`"),
    node .error [shifts 2, accept .semicolon]]

/-- Items up to the end of the block around. -/
def body (family : Family) : Production :=
  repeatUntil (·.bodyEnds family.category) (call (.item family))

/-- Items up to the end of the section. An `end if` with no open `if` does not end it. -/
def sectionBody (family : Family) : Production :=
  repeatUntil (fun v => v.bodyEnds family.category && !v.atBlockEnd) <| look fun v =>
    if v.atBlockEnd then strayEnd else call (.item family)

/-- A clause keyword, and the condition and `then` that belong to it, as an error. -/
def clauseHeadAsError : Production :=
  look fun v => node .error [
    shift,
    if v.sees .elseKw then done else seq [call .expression, accept .thenKw]]

/-- A clause that no open block can take. -/
def strayClause (family : Family) : Production :=
  look fun v =>
    let owner := keywordText (((clauseOwner? v.kind).map Construct.endKeyword).getD .ifKw)
    seq [
      match v.clauseResolution family.category with
      | .ambiguous =>
        fault .ambiguousClause (v.kind.displayName ++ " could close more than one open `" ++
          owner ++ "`")
      | _ =>
        fault .orphanClause (v.kind.displayName ++ " without an enclosing `" ++ owner ++ "`"),
      clauseHeadAsError]

/-- A clause after the `else` of its block. -/
def clauseAfterElse (family : Family) : Production :=
  look fun v => seq [
    fault .unexpectedToken (v.kind.displayName ++ " after `else` in the same `if`"),
    clauseHeadAsError,
    call (.body family)]

/-- `'elseif' Expression 'then' Item*` -/
def elseIfClause (family : Family) : Production :=
  node family.elseIfKind [shift, call .expression, expect .thenKw, call (.body family)]

/-- `'else' Item*` -/
def elseClause (family : Family) : Production :=
  node family.elseKind [shift, call (.body family)]

/-- `'elsewhen' Expression 'then' Item*` -/
def elseWhenClause (family : Family) : Production :=
  node family.elseWhenKind [shift, call .expression, expect .thenKw, call (.body family)]

/-- `'if' Expression 'then' Item* ElseIfClause* ElseClause? 'end' 'if' ... ';'` -/
def ifBlock (family : Family) : Production :=
  look fun start => node family.ifKind [
    shift,
    call .expression,
    expect .thenKw,
    opening ⟨.ifBlock, family.category⟩ <| seq [
      call (.body family),
      many (fun v => v.sees .elseifKw && v.clauseAttaches family.category)
        fun _ => call (.elseIfClause family),
      look fun v =>
        if v.sees .elseKw && v.clauseAttaches family.category then seq [
          call (.elseClause family),
          many (·.clauseAttaches family.category) fun _ => clauseAfterElse family]
        else done],
    finishBlock .ifBlock start.index]

/-- `'when' Expression 'then' Item* ElseWhenClause* 'end' 'when' ... ';'` -/
def whenBlock (family : Family) : Production :=
  look fun start => node family.whenKind [
    shift,
    call .expression,
    expect .thenKw,
    opening ⟨.whenBlock, family.category⟩ <| seq [
      call (.body family),
      many (fun v => v.sees .elsewhenKw && v.clauseAttaches family.category)
        fun _ => call (.elseWhenClause family)],
    finishBlock .whenBlock start.index]

/-- `'for' ForIndex (',' ForIndex)* 'loop' Item* 'end' 'for' ... ';'` -/
def forBlock (family : Family) : Production :=
  look fun start => node family.forKind [
    shift,
    separated .comma (call .forIndex),
    expect .loopKw,
    opening ⟨.forBlock, family.category⟩ (call (.body family)),
    finishBlock .forBlock start.index]

/-- `'while' Expression 'loop' Statement* 'end' 'while' ... ';'` -/
def whileBlock : Production :=
  look fun start => node .whileStatement [
    shift,
    call .expression,
    expect .loopKw,
    opening ⟨.whileBlock, .statement⟩ (call (.body .statements)),
    finishBlock .whileBlock start.index]

end Grammar

end Modelica
