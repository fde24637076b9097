import Jack.Event
import Jack.Tree

/-!
The grammar of classes: its trees, in which names are as they are spelled, and what a tree is read
from, the marks of the rules and the tokens between them.
-/

namespace Jack

namespace Event

abbrev keyword (k : Keyword) : Event := .consumed (.keyword k)

abbrev symbol (s : Symbol) : Event := .consumed (.symbol s)

abbrev word (x : String) : Event := .consumed (.identifier x)

/-- What a rule of the grammar reads, between its marks. -/
def span (rule : Rule) (es : List Event) : List Event :=
  .enter rule :: (es ++ [.leave rule])

def parenthesized (es : List Event) : List Event :=
  symbol .leftParen :: (es ++ [symbol .rightParen])

def bracketed (es : List Event) : List Event :=
  symbol .leftBracket :: (es ++ [symbol .rightBracket])

def braced (es : List Event) : List Event :=
  symbol .leftBrace :: (es ++ [symbol .rightBrace])

def token? : Event → Option Token
  | .consumed t => some t
  | .enter _ | .leave _ => none

def tokens (es : List Event) : List Token :=
  es.filterMap token?

@[simp] theorem tokens_nil : tokens [] = [] := rfl

@[simp] theorem tokens_consumed (t : Token) (es : List Event) :
    tokens (.consumed t :: es) = t :: tokens es := rfl

@[simp] theorem tokens_enter (r : Rule) (es : List Event) : tokens (.enter r :: es) = tokens es := rfl

@[simp] theorem tokens_leave (r : Rule) (es : List Event) : tokens (.leave r :: es) = tokens es := rfl

@[simp] theorem tokens_append (es fs : List Event) : tokens (es ++ fs) = tokens es ++ tokens fs :=
  List.filterMap_append

@[simp] theorem tokens_span (rule : Rule) (es : List Event) : tokens (span rule es) = tokens es := by
  simp [span]

theorem tokens_flatMap {α : Type} (xs : List α) (f : α → List Event) :
    tokens (xs.flatMap f) = xs.flatMap fun x => tokens (f x) := by
  induction xs with
  | nil => rfl
  | cons x xs ih => simp [ih]

end Event

def DataType.token : DataType → Token
  | .int => .keyword .int
  | .char => .keyword .char
  | .boolean => .keyword .boolean
  | .object className => .identifier className

def ReturnType.token : ReturnType → Token
  | .void => .keyword .void
  | .value type => type.token

def SubroutineKind.keyword : SubroutineKind → Keyword
  | .constructor => .constructor
  | .function => .function
  | .method => .method

namespace Grammar

/-- What is called: `name`, or `owner.name`. -/
inductive Called where
  | plain (name : String)
  | dotted (owner name : String)

mutual

inductive Term where
  | integer (value : Nat)
  | string (text : String)
  | constant (value : NamedConstant)
  | name (name : String)
  | element (array : String) (index : Expression)
  | call (called : Called) (arguments : List Expression)
  | group (inner : Expression)
  | unary (op : UnaryOp) (operand : Term)

inductive Expression where
  | chain (first : Term) (rest : List (BinaryOp × Term))

end

inductive Statement where
  | assign (target : String) (value : Expression)
  | store (array : String) (index value : Expression)
  | ifThen (condition : Expression) (yes : List Statement)
  | ifElse (condition : Expression) (yes no : List Statement)
  | while (condition : Expression) (body : List Statement)
  | do (called : Called) (arguments : List Expression)
  | return (value : Option Expression)

structure Variables where
  type : DataType
  first : String
  more : List String

inductive ClassVariable where
  | static | field
deriving DecidableEq

structure Subroutine where
  kind : SubroutineKind
  returnType : ReturnType
  name : String
  parameters : List Parameter
  locals : List Variables
  body : List Statement

structure Class where
  name : String
  declarations : List (ClassVariable × Variables)
  subroutines : List Subroutine

open Event (keyword symbol word span parenthesized bracketed braced)

def Called.derivation : Called → List Event
  | .plain x => [word x]
  | .dotted x y => [word x, symbol .dot, word y]

mutual

def Term.derivation : Term → List Event
  | .integer value => span .term [.consumed (.integer value)]
  | .string text => span .term [.consumed (.string text)]
  | .constant value => span .term [keyword value.keyword]
  | .name x => span .term [word x]
  | .element x index => span .term (word x :: bracketed index.derivation)
  | .call called arguments => span .term
    (called.derivation ++
      parenthesized (span .expressionList (Expression.derivationAll arguments)))
  | .group inner => span .term (parenthesized inner.derivation)
  | .unary op operand => span .term (symbol op.symbol :: operand.derivation)
termination_by structural t => t

def Expression.derivation : Expression → List Event
  | .chain first rest => span .expression (first.derivation ++ Expression.derivationRest rest)
termination_by structural e => e

def Expression.derivationRest : List (BinaryOp × Term) → List Event
  | [] => []
  | (op, operand) :: rest =>
    symbol op.symbol :: (operand.derivation ++ Expression.derivationRest rest)
termination_by structural rest => rest

def Expression.derivationAll : List Expression → List Event
  | [] => []
  | e :: es => e.derivation ++ Expression.derivationMore es
termination_by structural es => es

/-- What is read behind the first of several expressions. -/
def Expression.derivationMore : List Expression → List Event
  | [] => []
  | e :: es => symbol .comma :: (e.derivation ++ Expression.derivationMore es)
termination_by structural es => es

end

mutual

def Statement.derivation : Statement → List Event
  | .assign x value => span .letStatement
    (keyword .let :: word x :: symbol .equals :: (value.derivation ++ [symbol .semicolon]))
  | .store x index value => span .letStatement
    (keyword .let :: word x ::
      (bracketed index.derivation ++
        symbol .equals :: (value.derivation ++ [symbol .semicolon])))
  | .ifThen condition yes => span .ifStatement
    (keyword .if :: (parenthesized condition.derivation ++
      braced (span .statements (Statement.derivationAll yes))))
  | .ifElse condition yes no => span .ifStatement
    (keyword .if :: (parenthesized condition.derivation ++
      braced (span .statements (Statement.derivationAll yes)) ++
      keyword .else :: braced (span .statements (Statement.derivationAll no))))
  | .while condition body => span .whileStatement
    (keyword .while :: (parenthesized condition.derivation ++
      braced (span .statements (Statement.derivationAll body))))
  | .do called arguments => span .doStatement
    (keyword .do :: (called.derivation ++
      parenthesized (span .expressionList (Expression.derivationAll arguments)) ++
      [symbol .semicolon]))
  | .return none => span .returnStatement [keyword .return, symbol .semicolon]
  | .return (some value) => span .returnStatement
    (keyword .return :: (value.derivation ++ [symbol .semicolon]))

def Statement.derivationAll : List Statement → List Event
  | [] => []
  | s :: ss => s.derivation ++ Statement.derivationAll ss

end

def ClassVariable.keyword : ClassVariable → Keyword
  | .static => .static
  | .field => .field

def Variables.names (d : Variables) : List String := d.first :: d.more

def Variables.derivation (d : Variables) : List Event :=
  .consumed d.type.token :: word d.first ::
    (d.more.flatMap (fun x => [symbol .comma, word x]) ++ [symbol .semicolon])

def parameterDerivation (p : Parameter) : List Event :=
  [.consumed p.type.token, word p.name]

def parameterDerivations : List Parameter → List Event
  | [] => []
  | p :: ps => parameterDerivation p ++ ps.flatMap fun q => symbol .comma :: parameterDerivation q

def classVarDec (d : ClassVariable × Variables) : List Event :=
  span .classVarDec (keyword d.1.keyword :: d.2.derivation)

def varDec (d : Variables) : List Event :=
  span .varDec (keyword .var :: d.derivation)

def Subroutine.derivation (s : Subroutine) : List Event :=
  span .subroutineDec
    (keyword s.kind.keyword :: .consumed s.returnType.token :: word s.name ::
      (parenthesized (span .parameterList (parameterDerivations s.parameters)) ++
        span .subroutineBody (braced
          (s.locals.flatMap varDec ++ span .statements (Statement.derivationAll s.body)))))

def Class.derivation (c : Class) : List Event :=
  span .class
    (keyword .class :: word c.name :: braced
      (c.declarations.flatMap classVarDec ++ c.subroutines.flatMap (·.derivation)))

def Class.tokens (c : Class) : List Token :=
  Event.tokens c.derivation

open Event (tokens tokens_flatMap)

theorem Called.eof_not_mem (called : Called) : .eof ∉ tokens called.derivation := by
  cases called <;> simp [Called.derivation]

mutual

theorem Term.eof_not_mem (s : Term) : .eof ∉ tokens s.derivation := by
  cases s with
  | integer | string | constant | name => simp [Term.derivation]
  | element x index => simp [Term.derivation, Event.bracketed, index.eof_not_mem]
  | call called arguments =>
    simp [Term.derivation, Event.parenthesized, called.eof_not_mem,
      Expression.eof_not_mem_all arguments]
  | group inner => simp [Term.derivation, Event.parenthesized, inner.eof_not_mem]
  | unary op operand => simp [Term.derivation, operand.eof_not_mem]

theorem Expression.eof_not_mem (s : Expression) : .eof ∉ tokens s.derivation := by
  obtain ⟨first, rest⟩ := s
  simp [Expression.derivation, first.eof_not_mem, Expression.eof_not_mem_rest rest]

theorem Expression.eof_not_mem_rest (ss : List (BinaryOp × Term)) :
    .eof ∉ tokens (Expression.derivationRest ss) := by
  match ss with
  | [] => simp [Expression.derivationRest]
  | (op, s) :: ss =>
    simp [Expression.derivationRest, s.eof_not_mem, Expression.eof_not_mem_rest ss]

theorem Expression.eof_not_mem_all (ss : List Expression) :
    .eof ∉ tokens (Expression.derivationAll ss) := by
  match ss with
  | [] => simp [Expression.derivationAll]
  | s :: ss => simp [Expression.derivationAll, s.eof_not_mem, Expression.eof_not_mem_more ss]

theorem Expression.eof_not_mem_more (ss : List Expression) :
    .eof ∉ tokens (Expression.derivationMore ss) := by
  match ss with
  | [] => simp [Expression.derivationMore]
  | s :: ss => simp [Expression.derivationMore, s.eof_not_mem, Expression.eof_not_mem_more ss]

end

mutual

theorem Statement.eof_not_mem (s : Statement) : .eof ∉ tokens s.derivation := by
  cases s with
  | assign x value => simp [Statement.derivation, value.eof_not_mem]
  | store x index value =>
    simp [Statement.derivation, Event.bracketed, index.eof_not_mem, value.eof_not_mem]
  | ifThen condition yes =>
    simp [Statement.derivation, Event.parenthesized, Event.braced, condition.eof_not_mem,
      Statement.eof_not_mem_all yes]
  | ifElse condition yes no =>
    simp [Statement.derivation, Event.parenthesized, Event.braced, condition.eof_not_mem,
      Statement.eof_not_mem_all yes, Statement.eof_not_mem_all no]
  | «while» condition body =>
    simp [Statement.derivation, Event.parenthesized, Event.braced, condition.eof_not_mem,
      Statement.eof_not_mem_all body]
  | «do» called arguments =>
    simp [Statement.derivation, Event.parenthesized, called.eof_not_mem,
      Expression.eof_not_mem_all arguments]
  | «return» value => cases value with
    | none => simp [Statement.derivation]
    | some value => simp [Statement.derivation, value.eof_not_mem]

theorem Statement.eof_not_mem_all (ss : List Statement) :
    .eof ∉ tokens (Statement.derivationAll ss) := by
  match ss with
  | [] => simp [Statement.derivationAll]
  | s :: ss => simp [Statement.derivationAll, s.eof_not_mem, Statement.eof_not_mem_all ss]

end

theorem eof_ne_type (type : DataType) : Token.eof ≠ type.token := by
  cases type <;> simp [DataType.token]

theorem eof_ne_returnType (type : ReturnType) : Token.eof ≠ type.token := by
  cases type with
  | void => simp [ReturnType.token]
  | value type => exact eof_ne_type type

theorem Variables.eof_not_mem (d : Variables) : .eof ∉ tokens d.derivation := by
  simp [Variables.derivation, eof_ne_type, tokens_flatMap]

theorem eof_not_mem_parameters (ps : List Parameter) : .eof ∉ tokens (parameterDerivations ps) := by
  cases ps with
  | nil => simp [parameterDerivations]
  | cons p ps => simp [parameterDerivations, parameterDerivation, eof_ne_type, tokens_flatMap]

theorem Subroutine.eof_not_mem (s : Subroutine) : .eof ∉ tokens s.derivation := by
  simp [Subroutine.derivation, varDec, Event.parenthesized, Event.braced, eof_ne_returnType,
    tokens_flatMap, eof_not_mem_parameters, Variables.eof_not_mem, Statement.eof_not_mem_all]

theorem Class.eof_not_mem (c : Class) : .eof ∉ c.tokens := by
  simp [Class.tokens, Class.derivation, classVarDec, Event.braced, tokens_flatMap,
    Variables.eof_not_mem, Subroutine.eof_not_mem]

end Grammar

end Jack
