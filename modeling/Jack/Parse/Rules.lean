import Jack.Parse.Basic
import Jack.Scopes
import Jack.Tree

namespace Jack

/-- What the names in a subroutine may refer to. -/
structure Names where
  className : String
  scopes : Scopes

namespace Parse

inductive TermStart where
  | integer (value : Nat)
  | string (text : String)
  | named (name : String)
  | constant (value : NamedConstant)
  | group
  | unary (op : UnaryOp)

namespace TermStart

def kinds : List TokenKind :=
  [.integer, .string, .identifier, .keyword .true, .keyword .false, .keyword .null, .keyword .this,
    .symbol .leftParen, .symbol .minus, .symbol .tilde]

def ofToken? : Token → Option TermStart
  | .integer value => some (.integer value)
  | .string text => some (.string text)
  | .identifier name => some (.named name)
  | .keyword .true => some (.constant .true)
  | .keyword .false => some (.constant .false)
  | .keyword .null => some (.constant .null)
  | .keyword .this => some (.constant .this)
  | .symbol .leftParen => some .group
  | .symbol .minus => some (.unary .neg)
  | .symbol .tilde => some (.unary .not)
  | _ => none

end TermStart

def operators : List TokenKind :=
  BinaryOp.all.map (.symbol ·.symbol)

def operator? : Token → Option BinaryOp
  | .symbol s => BinaryOp.ofSymbol? s
  | _ => none

/-- Why the machine cannot hold a string. -/
def stringFault? (text : String) : Option RangeFault :=
  match text.toList.find? (128 ≤ ·.toNat) with
  | some c => some (.foreignCharacter c)
  | none => if maxConstant < text.length then some .longString else none

def resolve (names : Names) (name : String) (w : Window) : Attempt (Parsed (w.remaining + 1) Variable) :=
  match names.scopes.resolve? name with
  | some v => .ok ⟨v, w, Nat.lt_succ_self _⟩
  | none => reject (.unresolved name) w

def callee (names : Names) (first : String) (w : Window) :
    Attempt (Parsed (w.remaining + 1) Callee) :=
  if w.nextIs (.symbol .dot) then do
    let ⟨_, w₁, h₁⟩ ← symbol .dot w
    let ⟨name, w₂, h₂⟩ ← identifier w₁
    match names.scopes.resolve? first with
    | some v => return ⟨.method v name, w₂, by omega⟩
    | none => return ⟨.function first name, w₂, by omega⟩
  else if w.nextIs (.symbol .leftParen) then
    return ⟨.own names.className first, w, by omega⟩
  else
    unexpected [.symbol .leftParen, .symbol .dot] w

mutual

/-- `term (op term)*` -/
def expression (names : Names) (w : Window) : Attempt (Parsed w.remaining Expression) :=
  within .expression w fun w₁ h₁ => do
    let ⟨first, w₂, h₂⟩ ← term names w₁
    let ⟨rest, w₃, h₃⟩ ← many operators w.remaining (fun v _ => operation names v) w₂ (by omega)
    return ⟨.chain first rest, w₃, h₃⟩
termination_by 3 * w.remaining + 1

def operation (names : Names) (w : Window) : Attempt (Parsed w.remaining (BinaryOp × Term)) := do
  let ⟨op, w₁, h₁⟩ ← accept operators operator? w
  let ⟨operand, w₂, h₂⟩ ← term names w₁
  return ⟨(op, operand), w₂, by omega⟩
termination_by 3 * w.remaining

def term (names : Names) (w : Window) : Attempt (Parsed w.remaining Term) :=
  within .term w fun w₁ h₁ => do
    let ⟨start, w₂, h₂⟩ ← accept TermStart.kinds TermStart.ofToken? w₁
    match start with
    | .integer value =>
      if maxConstant < value then reject (.outOfRange (.largeInteger value)) w₂
      else return ⟨.integer value, w₂, by omega⟩
    | .string text =>
      match stringFault? text with
      | some fault => reject (.outOfRange fault) w₂
      | none => return ⟨.string text, w₂, by omega⟩
    | .constant value => return ⟨.constant value, w₂, by omega⟩
    | .group =>
      let ⟨inner, w₃, h₃⟩ ← expression names w₂
      let ⟨_, w₄, h₄⟩ ← symbol .rightParen w₃
      return ⟨.group inner, w₄, by omega⟩
    | .unary op =>
      let ⟨operand, w₃, h₃⟩ ← term names w₂
      return ⟨.unary op operand, w₃, by omega⟩
    | .named name =>
      if w₂.nextIsAmong [.symbol .leftParen, .symbol .dot] then
        let ⟨(callee, arguments), w₃, h₃⟩ ← call names name w₂
        return ⟨.call callee arguments, w₃, by omega⟩
      else
        let ⟨v, w₃, h₃⟩ ← resolve names name w₂
        if w₃.nextIs (.symbol .leftBracket) then
          let ⟨index, w₄, h₄⟩ ← subscript names w₃
          return ⟨.element v index, w₄, by omega⟩
        else
          return ⟨.variable v, w₃, by omega⟩
termination_by 3 * w.remaining

def subscript (names : Names) (w : Window) : Attempt (Parsed w.remaining Expression) := do
  let ⟨_, w₁, h₁⟩ ← symbol .leftBracket w
  let ⟨index, w₂, h₂⟩ ← expression names w₁
  let ⟨_, w₃, h₃⟩ ← symbol .rightBracket w₂
  return ⟨index, w₃, by omega⟩
termination_by 3 * w.remaining

/-- A call whose first name has just been consumed: `name(…)`, `variable.name(…)` or
`className.name(…)`. -/
def call (names : Names) (first : String) (w : Window) :
    Attempt (Parsed w.remaining (Callee × List Expression)) := do
  let ⟨callee, w₁, h₁⟩ ← callee names first w
  let ⟨_, w₂, h₂⟩ ← symbol .leftParen w₁
  let ⟨arguments, w₃, h₃⟩ ← expressionList names w₂
  let ⟨_, w₄, h₄⟩ ← symbol .rightParen w₃
  return ⟨(callee, arguments), w₄, by omega⟩
termination_by 3 * w.remaining

/-- `(expression (',' expression)*)?` -/
def expressionList (names : Names) (w : Window) :
    Attempt (Parsed (w.remaining + 1) (List Expression)) :=
  within .expressionList w fun w₁ h₁ =>
    if w₁.nextIs (.symbol .rightParen) then
      return ⟨[], w₁, by omega⟩
    else do
      let ⟨first, w₂, h₂⟩ ← expression names w₁
      let ⟨more, w₃, h₃⟩ ← many [.symbol .comma] w.remaining (fun v _ => nextExpression names v) w₂
        (by omega)
      return ⟨first :: more, w₃, by omega⟩
termination_by 3 * w.remaining + 2

def nextExpression (names : Names) (w : Window) : Attempt (Parsed w.remaining Expression) := do
  let ⟨_, w₁, h₁⟩ ← symbol .comma w
  let ⟨e, w₂, h₂⟩ ← expression names w₁
  return ⟨e, w₂, by omega⟩
termination_by 3 * w.remaining

end

def statementStarts : List TokenKind :=
  [.keyword .let, .keyword .if, .keyword .while, .keyword .do, .keyword .return]

/-- Closes a block, where one more statement would have done as well. -/
def endBlock (w : Window) : Attempt (Parsed w.remaining Unit) :=
  accept (statementStarts ++ [.symbol .rightBrace])
    (fun t => if t = .symbol .rightBrace then some () else none) w (by simp)

def assigned (names : Names) (w : Window) : Attempt (Parsed w.remaining Expression) := do
  let ⟨_, w₁, h₁⟩ ← symbol .equals w
  let ⟨value, w₂, h₂⟩ ← expression names w₁
  let ⟨_, w₃, h₃⟩ ← symbol .semicolon w₂
  return ⟨value, w₃, by omega⟩

/-- `'let' name ('[' expression ']')? '=' expression ';'` -/
def letStatement (names : Names) (w : Window) : Attempt (Parsed w.remaining Statement) :=
  within .letStatement w fun w₁ h₁ => do
    let ⟨_, w₂, h₂⟩ ← keyword .let w₁
    let ⟨name, w₃, h₃⟩ ← identifier w₂
    let ⟨target, w₄, h₄⟩ ← resolve names name w₃
    if w₄.nextIs (.symbol .leftBracket) then
      let ⟨index, w₅, h₅⟩ ← subscript names w₄
      let ⟨value, w₆, h₆⟩ ← assigned names w₅
      return ⟨.store target index value, w₆, by omega⟩
    else
      let ⟨value, w₅, h₅⟩ ← assigned names w₄
      return ⟨.assign target value, w₅, by omega⟩

def doStatement (names : Names) (w : Window) : Attempt (Parsed w.remaining Statement) :=
  within .doStatement w fun w₁ h₁ => do
    let ⟨_, w₂, h₂⟩ ← keyword .do w₁
    let ⟨first, w₃, h₃⟩ ← identifier w₂
    let ⟨(callee, arguments), w₄, h₄⟩ ← call names first w₃
    let ⟨_, w₅, h₅⟩ ← symbol .semicolon w₄
    return ⟨.do callee arguments, w₅, by omega⟩

/-- `'return' expression? ';'` -/
def returnStatement (names : Names) (w : Window) : Attempt (Parsed w.remaining Statement) :=
  within .returnStatement w fun w₁ h₁ => do
    let ⟨_, w₂, h₂⟩ ← keyword .return w₁
    if w₂.nextIs (.symbol .semicolon) then
      let ⟨_, w₃, h₃⟩ ← symbol .semicolon w₂
      return ⟨.return none, w₃, by omega⟩
    else
      let ⟨value, w₃, h₃⟩ ← expression names w₂
      let ⟨_, w₄, h₄⟩ ← symbol .semicolon w₃
      return ⟨.return (some value), w₄, by omega⟩

def condition (names : Names) (w : Window) : Attempt (Parsed w.remaining Expression) := do
  let ⟨_, w₁, h₁⟩ ← symbol .leftParen w
  let ⟨e, w₂, h₂⟩ ← expression names w₁
  let ⟨_, w₃, h₃⟩ ← symbol .rightParen w₂
  return ⟨e, w₃, by omega⟩

mutual

def statement (names : Names) (w : Window) : Attempt (Parsed w.remaining Statement) :=
  match w.next.token with
  | .keyword .let => letStatement names w
  | .keyword .if => ifStatement names w
  | .keyword .while => whileStatement names w
  | .keyword .do => doStatement names w
  | .keyword .return => returnStatement names w
  | _ => unexpected (statementStarts ++ [.symbol .rightBrace]) w
termination_by 3 * w.remaining + 1

/-- `'if' '(' expression ')' '{' statements '}' ('else' '{' statements '}')?` -/
def ifStatement (names : Names) (w : Window) : Attempt (Parsed w.remaining Statement) :=
  within .ifStatement w fun w₁ h₁ => do
    let ⟨_, w₂, h₂⟩ ← keyword .if w₁
    let ⟨e, w₃, h₃⟩ ← condition names w₂
    let ⟨yes, w₄, h₄⟩ ← block names w₃
    if w₄.nextIs (.keyword .else) then
      let ⟨_, w₅, h₅⟩ ← keyword .else w₄
      let ⟨no, w₆, h₆⟩ ← block names w₅
      return ⟨.ifElse e yes no, w₆, by omega⟩
    else
      return ⟨.ifThen e yes, w₄, by omega⟩
termination_by 3 * w.remaining

def whileStatement (names : Names) (w : Window) : Attempt (Parsed w.remaining Statement) :=
  within .whileStatement w fun w₁ h₁ => do
    let ⟨_, w₂, h₂⟩ ← keyword .while w₁
    let ⟨e, w₃, h₃⟩ ← condition names w₂
    let ⟨body, w₄, h₄⟩ ← block names w₃
    return ⟨.while e body, w₄, by omega⟩
termination_by 3 * w.remaining

def block (names : Names) (w : Window) : Attempt (Parsed w.remaining (List Statement)) := do
  let ⟨_, w₁, h₁⟩ ← symbol .leftBrace w
  let ⟨body, w₂, h₂⟩ ← statements names w₁
  let ⟨_, w₃, h₃⟩ ← endBlock w₂
  return ⟨body, w₃, by omega⟩
termination_by 3 * w.remaining

def statements (names : Names) (w : Window) :
    Attempt (Parsed (w.remaining + 1) (List Statement)) :=
  within .statements w fun w₁ h₁ =>
    many statementStarts (w.remaining + 1) (fun v _ => statement names v) w₁ (by omega)
termination_by 3 * w.remaining + 2

end

def typeKinds : List TokenKind :=
  [.keyword .int, .keyword .char, .keyword .boolean, .identifier]

def type? : Token → Option DataType
  | .keyword .int => some .int
  | .keyword .char => some .char
  | .keyword .boolean => some .boolean
  | .identifier className => some (.object className)
  | _ => none

def returnType? : Token → Option ReturnType
  | .keyword .void => some .void
  | t => (type? t).map .value

def classVariable? : Token → Option VariableKind
  | .keyword .static => some .static
  | .keyword .field => some .field
  | _ => none

def subroutineKind? : Token → Option SubroutineKind
  | .keyword .constructor => some .constructor
  | .keyword .function => some .function
  | .keyword .method => some .method
  | _ => none

def subroutineStarts : List TokenKind :=
  [.keyword .constructor, .keyword .function, .keyword .method]

def declare (kind : VariableKind) (type name : String) (scopes : Scopes) (w : Window) :
    Attempt (Parsed (w.remaining + 1) Scopes) :=
  match Scopes.declare name type kind w.last.location scopes with
  | .ok _ scopes => .ok ⟨scopes, w, Nat.lt_succ_self _⟩
  | .error e _ => .error ⟨e, w⟩

def newName (kind : VariableKind) (type : DataType) (scopes : Scopes) (w : Window) :
    Attempt (Parsed w.remaining (String × Scopes)) := do
  let ⟨name, w₁, h₁⟩ ← identifier w
  let ⟨scopes, w₂, h₂⟩ ← declare kind type.name name scopes w₁
  return ⟨(name, scopes), w₂, by omega⟩

def nextName (kind : VariableKind) (type : DataType) (scopes : Scopes) (w : Window) :
    Attempt (Parsed w.remaining (String × Scopes)) := do
  let ⟨_, w₁, h₁⟩ ← symbol .comma w
  let ⟨p, w₂, h₂⟩ ← newName kind type scopes w₁
  return ⟨p, w₂, by omega⟩

/-- `type name (',' name)* ';'` -/
def declaration (kind : VariableKind) (scopes : Scopes) (w : Window) :
    Attempt (Parsed w.remaining (Declaration × Scopes)) := do
  let ⟨type, w₁, h₁⟩ ← accept typeKinds type? w
  let ⟨(first, scopes), w₂, h₂⟩ ← newName kind type scopes w₁
  let ⟨(more, scopes), w₃, h₃⟩ ← manyWith [.symbol .comma] w.remaining
    (fun scopes v _ => nextName kind type scopes v) scopes w₂ (by omega)
  let ⟨_, w₄, h₄⟩ ← symbol .semicolon w₃
  return ⟨(⟨kind, type, first, more⟩, scopes), w₄, by omega⟩

/-- `('static' | 'field') type name (',' name)* ';'` -/
def classVarDec (scopes : Scopes) (w : Window) :
    Attempt (Parsed w.remaining (Declaration × Scopes)) :=
  within .classVarDec w fun w₁ h₁ => do
    let ⟨kind, w₂, h₂⟩ ← accept [.keyword .static, .keyword .field] classVariable? w₁
    let ⟨p, w₃, h₃⟩ ← declaration kind scopes w₂
    return ⟨p, w₃, by omega⟩

def varDec (scopes : Scopes) (w : Window) : Attempt (Parsed w.remaining (Declaration × Scopes)) :=
  within .varDec w fun w₁ h₁ => do
    let ⟨_, w₂, h₂⟩ ← keyword .var w₁
    let ⟨p, w₃, h₃⟩ ← declaration .local scopes w₂
    return ⟨p, w₃, by omega⟩

def parameter (scopes : Scopes) (w : Window) :
    Attempt (Parsed w.remaining (Parameter × Scopes)) := do
  let ⟨type, w₁, h₁⟩ ← accept typeKinds type? w
  let ⟨(name, scopes), w₂, h₂⟩ ← newName .argument type scopes w₁
  return ⟨(⟨type, name⟩, scopes), w₂, by omega⟩

def nextParameter (scopes : Scopes) (w : Window) :
    Attempt (Parsed w.remaining (Parameter × Scopes)) := do
  let ⟨_, w₁, h₁⟩ ← symbol .comma w
  let ⟨p, w₂, h₂⟩ ← parameter scopes w₁
  return ⟨p, w₂, by omega⟩

/-- `(type name (',' type name)*)?` -/
def parameterList (scopes : Scopes) (w : Window) :
    Attempt (Parsed (w.remaining + 1) (List Parameter × Scopes)) :=
  within .parameterList w fun w₁ h₁ =>
    if w₁.nextIs (.symbol .rightParen) then
      return ⟨([], scopes), w₁, by omega⟩
    else do
      let ⟨(first, scopes), w₂, h₂⟩ ← parameter scopes w₁
      let ⟨(more, scopes), w₃, h₃⟩ ← manyWith [.symbol .comma] w.remaining
        (fun scopes v _ => nextParameter scopes v) scopes w₂ (by omega)
      return ⟨(first :: more, scopes), w₃, by omega⟩

def subroutineBody (className : String) (scopes : Scopes) (w : Window) :
    Attempt (Parsed w.remaining (List Declaration × List Statement)) :=
  within .subroutineBody w fun w₁ h₁ => do
    let ⟨_, w₂, h₂⟩ ← symbol .leftBrace w₁
    let ⟨(locals, scopes), w₃, h₃⟩ ← manyWith [.keyword .var] w.remaining
      (fun scopes v _ => varDec scopes v) scopes w₂ (by omega)
    let ⟨body, w₄, h₄⟩ ← statements ⟨className, scopes⟩ w₃
    let ⟨_, w₅, h₅⟩ ← endBlock w₄
    return ⟨(locals, body), w₅, by omega⟩

/-- The object that a method is called on is its first argument. -/
def receiver (kind : SubroutineKind) (className : String) (scopes : Scopes) (w : Window) :
    Attempt (Parsed (w.remaining + 1) Scopes) :=
  match kind with
  | .method => declare .argument className "this" scopes w
  | .constructor | .function => .ok ⟨scopes, w, Nat.lt_succ_self _⟩

/-- `('constructor' | 'function' | 'method') ('void' | type) name '(' parameterList ')'
subroutineBody`, after the variables of the class have been declared in `scopes`. -/
def subroutine (className : String) (scopes : Scopes) (w : Window) :
    Attempt (Parsed w.remaining Subroutine) :=
  within .subroutineDec w fun w₁ h₁ => do
    let ⟨kind, w₂, h₂⟩ ← accept subroutineStarts subroutineKind? w₁
    let ⟨returnType, w₃, h₃⟩ ← accept (typeKinds ++ [.keyword .void]) returnType? w₂
    let ⟨name, w₄, h₄⟩ ← identifier w₃
    let ⟨scopes, w₅, h₅⟩ ← receiver kind className scopes.leaveSubroutine w₄
    let ⟨_, w₆, h₆⟩ ← symbol .leftParen w₅
    let ⟨(parameters, scopes), w₇, h₇⟩ ← parameterList scopes w₆
    let ⟨_, w₈, h₈⟩ ← symbol .rightParen w₇
    let ⟨(locals, body), w₉, h₉⟩ ← subroutineBody className scopes w₈
    return ⟨⟨kind, returnType, name, parameters, locals, body⟩, w₉, by omega⟩

/-- Closes the class, where one more subroutine would have done as well. -/
def endClass (w : Window) : Attempt (Parsed w.remaining Unit) :=
  accept (subroutineStarts ++ [.symbol .rightBrace])
    (fun t => if t = .symbol .rightBrace then some () else none) w (by simp)

/-- `'class' name '{' classVarDec* subroutineDec* '}'` -/
def classDec (w : Window) : Attempt (Parsed w.remaining Class) :=
  within .class w fun w₁ h₁ => do
    let ⟨_, w₂, h₂⟩ ← keyword .class w₁
    let ⟨name, w₃, h₃⟩ ← identifier w₂
    let ⟨_, w₄, h₄⟩ ← symbol .leftBrace w₃
    let ⟨(declarations, scopes), w₅, h₅⟩ ← manyWith [.keyword .static, .keyword .field] w.remaining
      (fun scopes v _ => classVarDec scopes v) .empty w₄ (by omega)
    let ⟨subroutines, w₆, h₆⟩ ← many subroutineStarts w.remaining
      (fun v _ => subroutine name scopes v) w₅ (by omega)
    let ⟨_, w₇, h₇⟩ ← endClass w₆
    return ⟨⟨name, declarations, subroutines⟩, w₇, by omega⟩

end Parse

end Jack
