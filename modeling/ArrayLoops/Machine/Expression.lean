import ArrayLoops.Machine.Native
import ArrayLoops.Tree.Walk

/-!
# Expressions

One step of the evaluation of an expression; its parts are evaluated by way of `Recursion`. A step
can be taken in other monads than that of runs, so that a run can be watched.
-/

namespace ArrayLoops.Machine

open ArrayLoops.Tree (Node Shape)

def onNumbers (f : Float → Float → Float) (left right : Value) : Run Value := do
  let x ← toNumber left
  let y ← toNumber right
  return .number (f x y)

def onWords (f : Int32 → Int32 → Int32) (left right : Value) : Run Value := do
  let x ← toInt32 left
  let y ← toInt32 right
  return .number (Float.ofInt (f x y).toInt)

def shiftCount (x : Int32) : UInt32 := x.toUInt32 &&& 31

def isTextual : Value → Bool
  | .string _ | .object _ => true
  | _ => false

/-- A sum of numbers, or a concatenation if one operand is a text or an object. -/
def add (left right : Value) : Run Value := do
  if isTextual left || isTextual right then
    let s ← display left
    let t ← display right
    return .string (s ++ t)
  else onNumbers (· + ·) left right

def compareWith (test : Ordering → Bool) (left right : Value) : Run Value := do
  let order ← convert (left.compare? · right)
  return .boolean (order.any test)

/-- Operators that always evaluate both operands. -/
def applyBinary (operator : Option Token.Kind) (left right : Value) : Run Value :=
  match operator with
  | some .plus => add left right
  | some .minus => onNumbers (· - ·) left right
  | some .times => onNumbers (· * ·) left right
  | some .divide => onNumbers (· / ·) left right
  | some .remainder => onNumbers Number.remainder left right
  | some .power => onNumbers Float.pow left right
  | some .less => compareWith (· == .lt) left right
  | some .greater => compareWith (· == .gt) left right
  | some .lessEquals => compareWith (· != .gt) left right
  | some .greaterEquals => compareWith (· != .lt) left right
  | some .identical => return .boolean (left.strictEquals right)
  | some .notIdentical => return .boolean (!left.strictEquals right)
  | some .equals => do return .boolean (← convert (left.looseEquals? · right))
  | some .notEquals => do return .boolean (!(← convert (left.looseEquals? · right)))
  | some .bitAnd => onWords (· &&& ·) left right
  | some .bitOr => onWords (· ||| ·) left right
  | some .bitXor => onWords (· ^^^ ·) left right
  | some .shiftLeft => onWords (fun x y => (x.toUInt32 <<< shiftCount y).toInt32) left right
  | some .shiftRight => onWords (fun x y => x >>> (shiftCount y).toInt32) left right
  | some .shiftRightUnsigned => do
    let x ← toInt32 left
    let y ← toInt32 right
    return .number (Float.ofNat (x.toUInt32 >>> shiftCount y).toNat)
  | _ => unsupported .binaryOperator

/-- Operators in front of an operand that do not change it. -/
def applyLeading (operator : Option Token.Kind) (value : Value) : Run Value :=
  match operator with
  | some .not => return .boolean (!value.isTruthy)
  | some .minus => do return .number (-(← toNumber value))
  | some .plus => do return .number (← toNumber value)
  | some .bitNot => do return .number (Float.ofInt (~~~(← toInt32 value)).toInt)
  | some .voidWord => return .undefined
  | _ => unsupported .prefixOperator

/-- The operator that an assignment combines the old and the new value with. -/
def combining : Token.Kind → Option Token.Kind
  | .plusAssign => some .plus
  | .minusAssign => some .minus
  | .timesAssign => some .times
  | .divideAssign => some .divide
  | .remainderAssign => some .remainder
  | _ => none

inductive Reference where
  | variable (name : String)
  | property (object : Value) (key : String)

namespace Reference

def get : Reference → Run Value
  | .variable name => lookup name
  | .property object key => getProperty object key

def put (reference : Reference) (value : Value) : Run Unit :=
  match reference with
  | .variable name => assign name value
  | .property object key => setProperty object key value

/-- Adds to the number in a place; gives the number before and the number after. -/
def step (reference : Reference) (delta : Float) : Run (Float × Float) := do
  let old ← toNumber (← reference.get)
  reference.put (.number (old + delta))
  return (old, old + delta)

end Reference

variable {μ : Type → Type} [Stepping μ]

@[specialize]
def evalAll (r : Recursion μ) (nodes : List Node) : μ (List Value) := nodes.mapM r.eval

@[specialize]
def evalMember (r : Recursion μ) : Node → μ (Value × String)
  | .mk _ (.access isComputed object key) => do
    let value ← r.eval object
    if isComputed then
      let key ← r.eval key
      return (value, ← display key)
    else
      return (value, ← identifierName key)
  | _ => unsupported .memberExpression

/-- The place that an expression stands for, in parentheses or not. -/
@[specialize]
def evalReference (r : Recursion μ) (node : Node) : μ Reference := do
  let target := node.unwrapped
  match target.kind? with
  | none => unsupported .missingTarget
  | some (.token .identifier) => return .variable (← identifierName target)
  | some .propertyAccess | some .elementAccess =>
    let (object, key) ← evalMember r target
    return .property object key
  | some _ => unsupported .assignmentTarget

def isMember (node : Node) : Bool := node.isKind .propertyAccess || node.isKind .elementAccess

/-- Calls a method on its object, or a function without one. The callee is evaluated and, if it is
a method, checked before the arguments. -/
@[specialize]
def evalCall (r : Recursion μ) (callee : Node) (arguments : List Node) : μ Value := do
  let inner := callee.unwrapped
  if isMember inner then
    let (object, key) ← evalMember r inner
    let method ← getProperty object key
    match ← callable? method with
    | none => raise .typeError ((← typeName object) ++ "." ++ key ++ " is not a function")
    | some _ =>
      let args ← evalAll r arguments
      r.call method object args
  else
    let function ← r.eval callee
    let args ← evalAll r arguments
    r.call function .undefined args

/-- Makes an object with a function as its constructor. An object that the function returns takes
the place of the new one. -/
@[specialize]
def construct (r : Recursion μ) (callee : Value) (args : List Value) : μ Value := do
  match ← callable? callee with
  | some (.native _) => r.call callee .undefined args
  | some (.closure { this := none, .. }) =>
    let made ← allocate { kind := .plain }
    match ← r.call callee made args with
    | .object id => return .object id
    | _ => return made
  | _ => raise .typeError ((← inspect callee) ++ " is not a constructor")

def propertyKey : Node → Run String
  | .absent => unsupported .missingPropertyName
  | .mk _ (.identifier text) => return text
  | .mk _ (.literal _ text _ value) =>
    return match value with
      | some x => Number.text x
      | none => text
  | _ => unsupported .computedPropertyName

/-- The properties of an object literal. A name alone stands for the variable of that name. -/
@[specialize]
def evalProperties (r : Recursion μ) : List Node → Properties → μ Properties
  | [], properties => return properties
  | .mk _ (.property name value) :: rest, properties => do
    let key ← propertyKey name
    let value ← r.eval (if value.isPresent then value else name)
    evalProperties r rest (properties.set key value)
  | _ :: rest, properties => evalProperties r rest properties

def isUnbound (node : Node) : Run Bool := do
  if node.isKind (.token .identifier) then
    return (← lookup? (← identifierName node)).isNone
  else return false

@[specialize]
def evalLeading (r : Recursion μ) (operator : Option Token.Kind) (operand : Node) : μ Value := do
  match operator with
  | some .typeofWord =>
    if ← isUnbound operand.unwrapped then return .string "undefined"
    else
      let value ← r.eval operand
      return .string (← typeName value)
  | some .increment =>
    let reference ← evalReference r operand
    return .number (← reference.step 1.0).2
  | some .decrement =>
    let reference ← evalReference r operand
    return .number (← reference.step (-1.0)).2
  | operator =>
    let value ← r.eval operand
    applyLeading operator value

@[specialize]
def evalTrailing (r : Recursion μ) (operator : Option Token.Kind) (operand : Node) : μ Value := do
  let reference ← evalReference r operand
  return .number (← reference.step (if operator == some .increment then 1.0 else -1.0)).1

@[specialize]
def evalBinary (r : Recursion μ) (left : Node) (operator : Option Token.Kind) (right : Node) :
    μ Value := do
  match operator with
  | some .and =>
    let value ← r.eval left
    if value.isTruthy then r.eval right else return value
  | some .or =>
    let value ← r.eval left
    if value.isTruthy then return value else r.eval right
  | some .coalesce =>
    let value ← r.eval left
    if value.isNullish then r.eval right else return value
  | some .comma =>
    let _ ← r.eval left
    r.eval right
  | some .assign =>
    let reference ← evalReference r left
    let value ← r.eval right
    reference.put value
    return value
  | operator =>
    match operator.bind combining with
    | some combined =>
      let reference ← evalReference r left
      let old ← reference.get
      let new ← r.eval right
      let value ← applyBinary (some combined) old new
      reference.put value
      return value
    | none =>
      let x ← r.eval left
      let y ← r.eval right
      applyBinary operator x y

/-- The value of a node that says nothing but its kind. -/
def evalBare (node : Node) (kind : Tree.Kind) : Run Value :=
  match kind with
  | .token .identifier => unsupported .bindingPattern
  | .token .number => return .number Number.notANumber
  | .token .string => return .string ""
  | .token .trueWord => return .boolean true
  | .token .falseWord => return .boolean false
  | .token .nullWord => return .null
  | .token .thisWord => fun m => .ok m.this m
  | .arrayLiteral => allocate (.ofItems #[])
  | .objectLiteral => allocate { kind := .plain }
  | .functionExpression | .arrowFunction => makeClosure node
  | .propertyAccess | .elementAccess => unsupported .memberExpression
  | .call | .new | .parenthesized | .prefixed | .postfixed | .binary | .conditional =>
    return .undefined
  | _ => unsupported .expressionKind

/-- Evaluates an expression. A missing one has no value in particular. -/
@[specialize]
def evalStep (r : Recursion μ) (node : Node) : μ Value :=
  match node with
  | .absent => return .undefined
  | .mk info shape =>
    match shape with
    | .identifier text => lookup text
    | .literal true text _ _ => return .string text
    | .literal false _ _ value => return .number (value.getD Number.notANumber)
    | .collection false elements => do
      let items ← evalAll r elements
      allocate (.ofItems items.toArray)
    | .collection true elements => do
      let properties ← evalProperties r elements []
      allocate { kind := .plain, properties }
    | .function .expression .. | .function .arrow .. => makeClosure (.mk info shape)
    | .access .. => do
      let (object, key) ← evalMember r node
      getProperty object key
    | .call false callee _ arguments => evalCall r callee arguments
    | .call true callee _ arguments => do
      let callee ← r.eval callee
      let args ← evalAll r arguments
      construct r callee args
    | .parenthesized expression => r.eval expression
    | .unary false operator operand => evalLeading r operator operand
    | .unary true operator operand => evalTrailing r operator operand
    | .binary left operator right => evalBinary r left operator right
    | .conditional condition whenTrue whenFalse => do
      let value ← r.eval condition
      if value.isTruthy then r.eval whenTrue else r.eval whenFalse
    | .bare kind => evalBare node kind
    | _ => unsupported .expressionKind

end ArrayLoops.Machine
