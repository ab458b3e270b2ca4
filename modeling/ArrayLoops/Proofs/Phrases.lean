import ArrayLoops.Grammar
import ArrayLoops.Proofs.Lexemes
import ArrayLoops.Proofs.Tree

/-!
# Phrases

Which trees a program can have, level by level, and the words that a tree is written with. A phrase
is a tree that stands for what a production of the grammar reads; the words are those of the program
in its plainest form, with every semicolon written and no comma behind the last item of a list.

A phrase knows how many constructs are open around it. With `limited` the number of open constructs
stays within what a parse allows.
-/

namespace ArrayLoops.Grammar

open Token (Kind Word)
open ArrayLoops.Tree (Flags Info Node Shape)

structure Spelling where
  word : Word
  joined : Bool := false
  deriving DecidableEq, Repr

namespace Spelling

def kind (spelling : Spelling) : Kind := spelling.word.kind

def sign (kind : Kind) : Spelling :=
  ⟨⟨kind, if kind.isReservedWord then kind.spelling else "", kind.spelling⟩, false⟩

def join (spelling : Spelling) : Spelling := { spelling with joined := true }

@[simp] theorem kind_sign (kind : Kind) : (sign kind).kind = kind := rfl

@[simp] theorem kind_join (spelling : Spelling) : spelling.join.kind = spelling.kind := rfl

end Spelling

open Spelling (sign)

def joinFirst : List Spelling → List Spelling
  | [] => []
  | first :: rest => first.join :: rest

def commas : List (List Spelling) → List Spelling
  | [] => []
  | [item] => item
  | item :: rest => item ++ sign .comma :: commas rest

def between (first last : Kind) (words : List Spelling) : List Spelling :=
  sign first :: words ++ [sign last]

def announced (kind : Kind) (part : Node × List Spelling) : List Spelling :=
  if part.1.isPresent then sign kind :: part.2 else []

def listed (parts : List (Node × List Spelling)) : List Spelling := commas (parts.map (·.2))

def declaringKind (flags : Flags) : Kind :=
  if flags.isConst then .constWord else if flags.isLet then .letWord else .varWord

def wordsNode (info : Info) : Shape (Node × List Spelling) → List Spelling
  | .bare kind =>
    match kind with
    | .token kind => [sign kind]
    | .breakStatement => [sign .breakWord, sign .semicolon]
    | .continueStatement => [sign .continueWord, sign .semicolon]
    | .emptyStatement => [sign .semicolon]
    | _ => []
  | .identifier text => [⟨⟨(Kind.ofWord? text).getD .identifier, text, text⟩, false⟩]
  | .literal isString text raw _ => [⟨⟨if isString then .string else .number, text, raw⟩, false⟩]
  | .binary left operator right => left.2 ++ operator.toList.map sign ++ right.2
  | .unary true operator operand => operand.2 ++ operator.toList.map fun kind => (sign kind).join
  | .unary false operator operand => operator.toList.map sign ++ operand.2
  | .call isNew callee isListed arguments =>
    (if isNew then [sign .newWord] else []) ++ callee.2 ++
      if isListed then between .openParen .closeParen (listed arguments) else []
  | .access false object key => object.2 ++ sign .dot :: key.2
  | .access true object key => object.2 ++ between .openBracket .closeBracket key.2
  | .conditional condition whenTrue whenFalse =>
    condition.2 ++ sign .question :: whenTrue.2 ++ sign .colon :: whenFalse.2
  | .collection false elements => between .openBracket .closeBracket (listed elements)
  | .collection true properties => between .openBrace .closeBrace (listed properties)
  | .property name value => name.2 ++ announced .colon value
  | .parenthesized expression => between .openParen .closeParen expression.2
  | .function .arrow _ parameters body =>
    between .openParen .closeParen (listed parameters) ++ (sign .arrow).join :: body.2
  | .function _ name parameters body =>
    sign .functionWord :: name.2 ++ between .openParen .closeParen (listed parameters) ++ body.2
  | .parameter name value | .variable name value => name.2 ++ announced .assign value
  | .block statements => between .openBrace .closeBrace (statements.flatMap (·.2))
  | .variables true lists => lists.flatMap (·.2) ++ [sign .semicolon]
  | .variables false declarations => sign (declaringKind info.flags) :: listed declarations
  | .evaluate expression => expression.2 ++ [sign .semicolon]
  | .exit isThrow value =>
    sign (if isThrow then .throwWord else .returnWord) :: joinFirst value.2 ++ [sign .semicolon]
  | .branch condition thenBranch elseBranch =>
    sign .ifWord :: between .openParen .closeParen condition.2 ++ thenBranch.2 ++
      announced .elseWord elseBranch
  | .loop .for initializer condition update body =>
    sign .forWord :: between .openParen .closeParen
      (initializer.2 ++ sign .semicolon :: condition.2 ++ sign .semicolon :: update.2) ++ body.2
  | .loop .while _ condition _ body =>
    sign .whileWord :: between .openParen .closeParen condition.2 ++ body.2
  | .loop .doWhile _ condition _ body =>
    sign .doWord :: body.2 ++ sign .whileWord :: between .openParen .closeParen condition.2 ++
      [sign .semicolon]
  | .file _ statements => statements.flatMap (·.2)

def words : Node → List Spelling := Node.fold [] wordsNode

def firstKind? (node : Node) : Option Kind := (words node).head?.map Spelling.kind

@[simp] theorem words_absent : words .absent = [] := rfl

theorem words_mk (info : Info) (shape : Shape Node) :
    words (.mk info shape) = wordsNode info (shape.map fun part => (part, words part)) := by
  rw [words, Node.fold_mk]

theorem listed_map (nodes : List Node) :
    listed (nodes.map fun part => (part, words part)) = commas (nodes.map words) := by
  rw [listed, List.map_map]
  rfl

theorem flatMap_pairs (nodes : List Node) :
    (nodes.map fun part => (part, words part)).flatMap (·.2) = nodes.flatMap words :=
  List.flatMap_map ..

section
variable {info : Info} {left right name value condition body : Node} {nodes : List Node}

theorem words_binary {operator : Kind} : words (.mk info (.binary left (some operator) right)) =
    words left ++ sign operator :: words right :=
  (words_mk _ _).trans (List.append_assoc (words left) [sign operator] (words right))

theorem words_trailing {operator : Kind} : words (.mk info (.unary true (some operator) value)) =
    words value ++ [(sign operator).join] := words_mk _ _

theorem words_leading {operator : Kind} : words (.mk info (.unary false (some operator) value)) =
    sign operator :: words value := words_mk _ _

theorem words_call : words (.mk info (.call false left true nodes)) =
    words left ++ between .openParen .closeParen (commas (nodes.map words)) := by
  rw [words_mk, ← listed_map]
  rfl

theorem words_newListed : words (.mk info (.call true left true nodes)) =
    sign .newWord :: words left ++ between .openParen .closeParen (commas (nodes.map words)) := by
  rw [words_mk, ← listed_map]
  rfl

theorem words_newBare : words (.mk info (.call true left false nodes)) =
    sign .newWord :: words left := (words_mk _ _).trans (List.append_nil _)

theorem words_access : words (.mk info (.access false left right)) =
    words left ++ sign .dot :: words right := words_mk _ _

theorem words_element : words (.mk info (.access true left right)) =
    words left ++ between .openBracket .closeBracket (words right) := words_mk _ _

theorem words_conditional : words (.mk info (.conditional condition left right)) =
    words condition ++ sign .question :: words left ++ sign .colon :: words right := words_mk _ _

theorem words_array : words (.mk info (.collection false nodes)) =
    between .openBracket .closeBracket (commas (nodes.map words)) := by
  rw [words_mk, ← listed_map]
  rfl

theorem words_object : words (.mk info (.collection true nodes)) =
    between .openBrace .closeBrace (commas (nodes.map words)) := by
  rw [words_mk, ← listed_map]
  rfl

theorem words_property : words (.mk info (.property name value)) =
    words name ++ announced .colon (value, words value) := words_mk _ _

theorem words_parenthesized : words (.mk info (.parenthesized value)) =
    between .openParen .closeParen (words value) := words_mk _ _

theorem words_arrow : words (.mk info (.function .arrow name nodes body)) =
    between .openParen .closeParen (commas (nodes.map words)) ++
      (sign .arrow).join :: words body := by
  rw [words_mk, ← listed_map]
  rfl

theorem words_function {form : Tree.FunctionForm} (h : form ≠ .arrow) :
    words (.mk info (.function form name nodes body)) =
      sign .functionWord :: words name ++
        between .openParen .closeParen (commas (nodes.map words)) ++ words body := by
  cases form with
  | arrow => exact absurd rfl h
  | declaration | expression =>
    rw [words_mk, ← listed_map]
    rfl

theorem words_parameter : words (.mk info (.parameter name value)) =
    words name ++ announced .assign (value, words value) := words_mk _ _

theorem words_variable : words (.mk info (.variable name value)) =
    words name ++ announced .assign (value, words value) := words_mk _ _

theorem words_block : words (.mk info (.block nodes)) =
    between .openBrace .closeBrace (nodes.flatMap words) := by
  rw [words_mk, ← flatMap_pairs]
  rfl

theorem words_variableStatement : words (.mk info (.variables true [value])) =
    words value ++ [sign .semicolon] :=
  (words_mk _ _).trans (congrArg (· ++ [sign .semicolon]) (List.append_nil (words value)))

theorem words_variables : words (.mk info (.variables false nodes)) =
    sign (declaringKind info.flags) :: commas (nodes.map words) := by
  rw [words_mk, ← listed_map]
  rfl

theorem words_evaluate : words (.mk info (.evaluate value)) = words value ++ [sign .semicolon] :=
  words_mk _ _

theorem words_exit {isThrow : Bool} : words (.mk info (.exit isThrow value)) =
    sign (if isThrow then .throwWord else .returnWord) :: joinFirst (words value) ++
      [sign .semicolon] := words_mk _ _

theorem words_branch : words (.mk info (.branch condition left right)) =
    sign .ifWord :: between .openParen .closeParen (words condition) ++ words left ++
      announced .elseWord (right, words right) := words_mk _ _

theorem words_for : words (.mk info (.loop .for left condition right body)) =
    sign .forWord :: between .openParen .closeParen (words left ++ sign .semicolon ::
      words condition ++ sign .semicolon :: words right) ++ words body := words_mk _ _

theorem words_while : words (.mk info (.loop .while left condition right body)) =
    sign .whileWord :: between .openParen .closeParen (words condition) ++ words body :=
  words_mk _ _

theorem words_doWhile : words (.mk info (.loop .doWhile left condition right body)) =
    sign .doWord :: words body ++ sign .whileWord ::
      between .openParen .closeParen (words condition) ++ [sign .semicolon] := words_mk _ _

theorem words_file {file : String} : words (.mk info (.file file nodes)) = nodes.flatMap words := by
  rw [words_mk, ← flatMap_pairs]
  rfl

end

/-- A node that stands for a name or a literal of one of the given kinds. -/
inductive Leaf (kinds : Kind → Bool) : Node → Prop where
  | name {id pos fin : Nat} {text : String} :
    kinds ((Kind.ofWord? text).getD .identifier) →
    Word.Genuine ⟨(Kind.ofWord? text).getD .identifier, text, text⟩ →
    Leaf kinds (.mk ⟨id, pos, fin, {}⟩ (.identifier text))
  | literal {id pos fin : Nat} {isString : Bool} {text raw : String} :
    kinds (if isString then .string else .number) →
    Word.Genuine ⟨if isString then .string else .number, text, raw⟩ →
    Leaf kinds (.mk ⟨id, pos, fin, {}⟩
      (.literal isString text raw (if isString then none else Number.ofLiteral? text)))

/-- Names that are not reserved. -/
def isBinding (kind : Kind) : Bool := kind == .identifier

/-- Names of properties behind a point. -/
def isMemberName (kind : Kind) : Bool := kind == .identifier || kind.isReservedWord

def isLiteral (kind : Kind) : Bool := kind == .string || kind == .number

/-- Names of properties in an object literal. -/
def isKey (kind : Kind) : Bool := isMemberName kind || isLiteral kind

/-- Names and literals as expressions. -/
def isOperand (kind : Kind) : Bool := isBinding kind || isLiteral kind

/-- Words that are expressions. -/
def isValueWord : Kind → Bool
  | .thisWord | .trueWord | .falseWord | .nullWord => true
  | _ => false

/-- What a phrase can stand for. The number of links is that of the operators, accesses and calls on
the left side, which stay open until the end of the chain. -/
inductive Level where
  | statement
  | block
  | expression (links : Nat)
  | assignment
  | binary (least links : Nat)
  | unary
  /-- An operand with a trailing operator or none. -/
  | operand
  | member (calls : Bool) (links : Nat)
  /-- What a chain of accesses and calls begins with. -/
  | head
  | new
  | property
  | parameter
  | variable
  | variables
  deriving DecidableEq, Repr

/-- How many constructs are open at least around a phrase of the level. -/
def Level.floor : Level → Nat
  | .statement => 0
  | .block | .expression _ | .assignment | .property | .parameter | .variable | .variables => 1
  | .binary .. | .unary | .operand | .member .. | .head | .new => 2

/-- A `new` without arguments takes the parentheses behind it. -/
def isOpenNew : Node → Bool
  | .mk _ (.call true _ false _) => true
  | _ => false

/-- A statement that takes an `else` behind it. -/
def isOpenIf : Node → Bool
  | .mk _ (.branch _ _ elseBranch) => !elseBranch.isPresent || isOpenIf elseBranch
  | .mk _ (.loop .for _ _ _ body) => isOpenIf body
  | .mk _ (.loop .while _ _ _ body) => isOpenIf body
  | _ => false

/-- How tightly the left operand of an operator binds at least. A power groups to the right. -/
def leftLeast (operator : Kind) : Nat :=
  if operator == .power then operator.precedence + 1 else operator.precedence

/-- How tightly the right operand of an operator binds at least. -/
def rightLeast (operator : Kind) : Nat :=
  if operator == .power then operator.precedence else operator.precedence + 1

theorem precedence_lt_power {operator : Kind} (h : operator ≠ .power) :
    operator.precedence < Kind.power.precedence := by
  cases operator <;> first | exact absurd rfl h | decide

/-- An operator that does not belong to the right operand of another takes this other one into its
left operand. -/
theorem leftLeast_le {operator next : Kind} (h : next.precedence < rightLeast operator) :
    leftLeast next ≤ operator.precedence := by
  unfold leftLeast rightLeast at *
  by_cases hn : next = .power
  · subst hn
    by_cases ho : operator = .power
    · subst ho
      simp at h
    · have := precedence_lt_power ho
      simp only [beq_iff_eq, ho, if_false] at h
      omega
  · by_cases ho : operator = .power
    · subst ho
      simp only [beq_iff_eq, hn, if_false]
      simp only [beq_self_eq_true, if_true] at h
      omega
    · simp only [beq_iff_eq, hn, ho, if_false] at h ⊢
      omega

def Room (limited : Bool) (depth : Nat) : Prop := limited → depth < maxDepth

theorem Room.unlimited {depth : Nat} : Room false depth := nofun

/-- The tree is a phrase of the level, with `depth` constructs open around it. -/
inductive Phrase (limited : Bool) : Level → Nat → Node → Prop where
  -- Primary expressions
  | leaf {depth : Nat} {node : Node} :
    Leaf isOperand node → Phrase limited .head depth node
  | word {depth id pos fin : Nat} {kind : Kind} :
    isValueWord kind → Phrase limited .head depth (.mk ⟨id, pos, fin, {}⟩ (.bare (.token kind)))
  | parenthesized {depth id pos fin links : Nat} {expression : Node} :
    Phrase limited (.expression links) depth expression →
    Phrase limited .head depth (.mk ⟨id, pos, fin, {}⟩ (.parenthesized expression))
  | array {depth id pos fin : Nat} {elements : List Node} :
    (∀ element ∈ elements, Phrase limited .assignment depth element) →
    Phrase limited .head depth (.mk ⟨id, pos, fin, {}⟩ (.collection false elements))
  | object {depth id pos fin : Nat} {properties : List Node} :
    (∀ property ∈ properties, Phrase limited .property depth property) →
    Phrase limited .head depth (.mk ⟨id, pos, fin, {}⟩ (.collection true properties))
  | functionExpression {depth id pos fin : Nat} {name body : Node} {parameters : List Node} :
    (name.isPresent → Leaf isBinding name) →
    (∀ parameter ∈ parameters, Phrase limited .parameter depth parameter) →
    Phrase limited .block depth body →
    Phrase limited .head depth (.mk ⟨id, pos, fin, {}⟩ (.function .expression name parameters body))
  | ofNew {depth : Nat} {node : Node} :
    Phrase limited .new depth node → Phrase limited .head depth node
  | property {depth id pos fin : Nat} {name value : Node} :
    Leaf isKey name → Phrase limited .assignment depth value →
    Phrase limited .property depth (.mk ⟨id, pos, fin, {}⟩ (.property name value))
  | shorthand {depth id pos fin : Nat} {name : Node} :
    Leaf isMemberName name →
    Phrase limited .property depth (.mk ⟨id, pos, fin, {}⟩ (.property name .absent))
  -- Member access and calls
  | newListed {depth id pos fin links : Nat} {callee : Node} {arguments : List Node} :
    Phrase limited (.member false links) depth callee → isOpenNew callee = false →
    (∀ argument ∈ arguments, Phrase limited .assignment depth argument) →
    Phrase limited .new depth (.mk ⟨id, pos, fin, {}⟩ (.call true callee true arguments))
  | newBare {depth id pos fin links : Nat} {callee : Node} :
    Phrase limited (.member false links) depth callee →
    Phrase limited .new depth (.mk ⟨id, pos, fin, {}⟩ (.call true callee false []))
  | ofHead {depth : Nat} {calls : Bool} {node : Node} :
    Phrase limited .head depth node → Phrase limited (.member calls 0) depth node
  | access {depth id pos fin links : Nat} {calls : Bool} {object key : Node} :
    Phrase limited (.member calls links) depth object → isOpenNew object = false →
    Room limited (depth + links) → Leaf isMemberName key →
    Phrase limited (.member calls (links + 1)) depth
      (.mk ⟨id, pos, fin, {}⟩ (.access false object key))
  | element {depth id pos fin links more : Nat} {calls : Bool} {object key : Node} :
    Phrase limited (.member calls links) depth object → isOpenNew object = false →
    Room limited (depth + links) → Phrase limited (.expression more) (depth + links + 1) key →
    Phrase limited (.member calls (links + 1)) depth
      (.mk ⟨id, pos, fin, {}⟩ (.access true object key))
  | call {depth id pos fin links : Nat} {callee : Node} {arguments : List Node} :
    Phrase limited (.member true links) depth callee → isOpenNew callee = false →
    Room limited (depth + links) →
    (∀ argument ∈ arguments, Phrase limited .assignment (depth + links + 1) argument) →
    Phrase limited (.member true (links + 1)) depth
      (.mk ⟨id, pos, fin, {}⟩ (.call false callee true arguments))
  -- Operators
  | ofMember {depth links : Nat} {node : Node} :
    Phrase limited (.member true links) depth node → Phrase limited .operand depth node
  | trailing {depth id pos fin links : Nat} {operator : Kind} {operand : Node} :
    operator = .increment ∨ operator = .decrement →
    Phrase limited (.member true links) depth operand →
    Phrase limited .operand depth (.mk ⟨id, pos, fin, {}⟩ (.unary true (some operator) operand))
  | ofOperand {depth : Nat} {node : Node} :
    Phrase limited .operand depth node → Phrase limited .unary depth node
  | leading {depth id pos fin : Nat} {operator : Kind} {operand : Node} :
    isLeadingOperator operator → Room limited depth →
    Phrase limited .unary (depth + 1) operand →
    Phrase limited .unary depth (.mk ⟨id, pos, fin, {}⟩ (.unary false (some operator) operand))
  | ofUnary {depth least : Nat} {node : Node} :
    Phrase limited .unary depth node → Phrase limited (.binary least 0) depth node
  | operator {depth id pos fin least links more : Nat} {operator : Kind} {left right : Node} :
    operator.precedence ≠ 0 → least ≤ operator.precedence →
    Phrase limited (.binary (leftLeast operator) links) depth left →
    Room limited (depth + links) →
    Phrase limited (.binary (rightLeast operator) more) (depth + links + 1) right →
    Phrase limited (.binary least (links + 1)) depth
      (.mk ⟨id, pos, fin, {}⟩ (.binary left (some operator) right))
  -- Assignments
  | ofBinary {depth links : Nat} {node : Node} :
    Room limited depth → Phrase limited (.binary 1 links) (depth + 1) node →
    Phrase limited .assignment depth node
  | assign {depth id pos fin links : Nat} {operator : Kind} {left right : Node} :
    Room limited depth → Phrase limited (.binary 1 links) (depth + 1) left → isTarget left →
    operator.isAssignment → Phrase limited .assignment (depth + 1) right →
    Phrase limited .assignment depth (.mk ⟨id, pos, fin, {}⟩ (.binary left (some operator) right))
  | conditional {depth id pos fin links : Nat} {condition whenTrue whenFalse : Node} :
    Room limited depth → Phrase limited (.binary 1 links) (depth + 1) condition →
    Phrase limited .assignment (depth + 1) whenTrue →
    Phrase limited .assignment (depth + 1) whenFalse →
    Phrase limited .assignment depth
      (.mk ⟨id, pos, fin, {}⟩ (.conditional condition whenTrue whenFalse))
  | arrowBlock {depth id pos fin : Nat} {parameters : List Node} {body : Node} :
    Room limited depth →
    (∀ parameter ∈ parameters, Phrase limited .parameter (depth + 1) parameter) →
    Phrase limited .block (depth + 1) body →
    Phrase limited .assignment depth
      (.mk ⟨id, pos, fin, {}⟩ (.function .arrow .absent parameters body))
  | arrowExpression {depth id pos fin : Nat} {parameters : List Node} {body : Node} :
    Room limited depth →
    (∀ parameter ∈ parameters, Phrase limited .parameter (depth + 1) parameter) →
    Phrase limited .assignment (depth + 1) body → firstKind? body ≠ some .openBrace →
    Phrase limited .assignment depth
      (.mk ⟨id, pos, fin, { expressionBody := true }⟩ (.function .arrow .absent parameters body))
  | ofAssignment {depth : Nat} {node : Node} :
    Phrase limited .assignment depth node → Phrase limited (.expression 0) depth node
  | comma {depth id pos fin links : Nat} {left right : Node} :
    Phrase limited (.expression links) depth left → Room limited (depth + links) →
    Phrase limited .assignment (depth + links + 1) right →
    Phrase limited (.expression (links + 1)) depth
      (.mk ⟨id, pos, fin, {}⟩ (.binary left (some .comma) right))
  -- Declarations
  | parameter {depth id pos fin : Nat} {name value : Node} :
    Leaf isBinding name → (value.isPresent → Phrase limited .assignment depth value) →
    Phrase limited .parameter depth (.mk ⟨id, pos, fin, {}⟩ (.parameter name value))
  | variable {depth id pos fin : Nat} {name value : Node} :
    Leaf isBinding name → (value.isPresent → Phrase limited .assignment depth value) →
    Phrase limited .variable depth (.mk ⟨id, pos, fin, {}⟩ (.variable name value))
  | variables {depth id pos fin : Nat} {kind : Kind} {declarations : List Node} :
    declarations ≠ [] → (∀ declared ∈ declarations, Phrase limited .variable depth declared) →
    Phrase limited .variables depth
      (.mk ⟨id, pos, fin, declarationFlags kind⟩ (.variables false declarations))
  -- Statements
  | block {depth id pos fin : Nat} {statements : List Node} :
    (∀ statement ∈ statements, Phrase limited .statement depth statement) →
    Phrase limited .block depth (.mk ⟨id, pos, fin, {}⟩ (.block statements))
  | ofBlock {depth : Nat} {node : Node} :
    Room limited depth → Phrase limited .block (depth + 1) node →
    Phrase limited .statement depth node
  | variableStatement {depth id pos fin : Nat} {list : Node} :
    Room limited depth → Phrase limited .variables (depth + 1) list →
    Phrase limited .statement depth (.mk ⟨id, pos, fin, {}⟩ (.variables true [list]))
  | functionDeclaration {depth id pos fin : Nat} {name body : Node} {parameters : List Node} :
    Room limited depth → Leaf isBinding name →
    (∀ parameter ∈ parameters, Phrase limited .parameter (depth + 1) parameter) →
    Phrase limited .block (depth + 1) body →
    Phrase limited .statement depth
      (.mk ⟨id, pos, fin, {}⟩ (.function .declaration name parameters body))
  | branch {depth id pos fin links : Nat} {condition thenBranch elseBranch : Node} :
    Room limited depth → Phrase limited (.expression links) (depth + 1) condition →
    Phrase limited .statement (depth + 1) thenBranch →
    (elseBranch.isPresent → isOpenIf thenBranch = false) →
    (elseBranch.isPresent → Phrase limited .statement (depth + 1) elseBranch) →
    Phrase limited .statement depth
      (.mk ⟨id, pos, fin, {}⟩ (.branch condition thenBranch elseBranch))
  | forLoop {depth id pos fin first second third : Nat}
      {initializer condition update body : Node} :
    Room limited depth →
    (initializer.isKind .variableList → Phrase limited .variables (depth + 1) initializer) →
    (initializer.isPresent → initializer.isKind .variableList = false →
      Phrase limited (.expression first) (depth + 1) initializer) →
    (condition.isPresent → Phrase limited (.expression second) (depth + 1) condition) →
    (update.isPresent → Phrase limited (.expression third) (depth + 1) update) →
    Phrase limited .statement (depth + 1) body →
    Phrase limited .statement depth
      (.mk ⟨id, pos, fin, {}⟩ (.loop .for initializer condition update body))
  | whileLoop {depth id pos fin links : Nat} {condition body : Node} :
    Room limited depth → Phrase limited (.expression links) (depth + 1) condition →
    Phrase limited .statement (depth + 1) body →
    Phrase limited .statement depth
      (.mk ⟨id, pos, fin, {}⟩ (.loop .while .absent condition .absent body))
  | doLoop {depth id pos fin links : Nat} {condition body : Node} :
    Room limited depth → Phrase limited (.expression links) (depth + 1) condition →
    Phrase limited .statement (depth + 1) body →
    Phrase limited .statement depth
      (.mk ⟨id, pos, fin, {}⟩ (.loop .doWhile .absent condition .absent body))
  | exit {depth id pos fin links : Nat} {isThrow : Bool} {value : Node} :
    Room limited depth → (isThrow → value.isPresent) →
    (value.isPresent → Phrase limited (.expression links) (depth + 1) value) →
    Phrase limited .statement depth (.mk ⟨id, pos, fin, {}⟩ (.exit isThrow value))
  | jump {depth id pos fin : Nat} {kind : Tree.Kind} :
    Room limited depth →
    kind = .breakStatement ∨ kind = .continueStatement ∨ kind = .emptyStatement →
    Phrase limited .statement depth (.mk ⟨id, pos, fin, {}⟩ (.bare kind))
  | evaluate {depth id pos fin links : Nat} {expression : Node} :
    Room limited depth → Phrase limited (.expression links) (depth + 1) expression →
    firstKind? expression ≠ some .openBrace → firstKind? expression ≠ some .functionWord →
    Phrase limited .statement depth (.mk ⟨id, pos, fin, {}⟩ (.evaluate expression))

variable {limited : Bool} {level : Level} {depth : Nat} {node : Node}

theorem Leaf.words_eq {kinds : Kind → Bool} (h : Leaf kinds node) :
    ∃ word, words node = [⟨word, false⟩] ∧ kinds word.kind ∧ word.Genuine := by
  cases h with
  | name hk hg => exact ⟨_, words_mk _ _, hk, hg⟩
  | literal hk hg => exact ⟨_, words_mk _ _, hk, hg⟩

theorem Phrase.words_ne_nil (h : Phrase limited level depth node) : words node ≠ [] := by
  induction h with
  | leaf hleaf =>
    obtain ⟨word, hwords, -⟩ := hleaf.words_eq
    simp [hwords]
  | property hname _ | shorthand hname | parameter hname _ _ | «variable» hname _ _ =>
    obtain ⟨word, hwords, -⟩ := hname.words_eq
    simp [words_mk, Shape.map, wordsNode, hwords]
  | access | element => simp_all [words_mk, Shape.map, wordsNode]
  | jump _ hkind => rcases hkind with rfl | rfl | rfl <;> simp [words_mk, Shape.map, wordsNode]
  | ofNew _ ih | ofHead _ ih | ofMember _ ih | ofOperand _ ih | ofUnary _ ih | ofBinary _ _ ih
  | ofAssignment _ ih | ofBlock _ _ ih => exact ih
  | _ => simp_all [words_mk, Shape.map, wordsNode, between]

theorem Phrase.isPresent (h : Phrase limited level depth node) : node.isPresent := by
  cases node with
  | absent => exact absurd words_absent h.words_ne_nil
  | mk => rfl

theorem Phrase.isKind_variableList (h : Phrase limited level depth node)
    (hl : level ≠ .variables) : node.isKind .variableList = false := by
  induction h with
  | leaf hleaf =>
    cases hleaf with
    | name => rfl
    | @literal _ _ _ isString => cases isString <;> rfl
  | jump _ hkind => rcases hkind with rfl | rfl | rfl <;> rfl
  | @exit _ _ _ _ _ isThrow => cases isThrow <;> rfl
  | ofNew _ ih | ofHead _ ih | ofMember _ ih | ofOperand _ ih | ofUnary _ ih | ofBinary _ _ ih
  | ofAssignment _ ih | ofBlock _ _ ih => exact ih nofun
  | «variables» => exact absurd rfl hl
  | _ => rfl

theorem head?_append_left {words others : List Spelling} (h : words ≠ []) :
    (words ++ others).head? = words.head? := by
  cases words with
  | nil => exact absurd rfl h
  | cons first rest => rfl

/-- The tree is a phrase of some level, or a name or literal by itself. -/
def IsPhrase (limited : Bool) (node : Node) : Prop :=
  (∃ level depth, Phrase limited level depth node) ∨ ∃ kinds, Leaf kinds node

theorem Leaf.parts_eq_nil {kinds : Kind → Bool} (h : Leaf kinds node) : node.parts = [] := by
  cases h <;> rfl

/-- A part of a phrase is a phrase, too. It has as many constructs around it as its level takes at least,
if the whole has. -/
theorem Phrase.part_floor (h : Phrase limited level depth node) : ∀ part ∈ node.parts, part.isPresent →
    (∃ inner below, Phrase limited inner below part ∧ (level.floor ≤ depth → inner.floor ≤ below)) ∨
      ∃ kinds, Leaf kinds part := by
  intro part hp hpresent
  have ofPhrase : ∀ {level inner : Level} {depth below : Nat}, Phrase limited inner below part →
      (level.floor ≤ depth → inner.floor ≤ below) →
      (∃ inner below, Phrase limited inner below part ∧ (level.floor ≤ depth → inner.floor ≤ below)) ∨
        ∃ kinds, Leaf kinds part := fun h hfloor => .inl ⟨_, _, h, hfloor⟩
  have ofFunction : ∀ {name body : Node} {parameters : List Node} {level inner : Level} {depth below : Nat},
      (name.isPresent → Leaf isBinding name) →
      (∀ parameter ∈ parameters, Phrase limited .parameter below parameter) →
      Phrase limited inner below body → (level.floor ≤ depth → 1 ≤ below) → inner.floor ≤ 1 →
      part ∈ name :: parameters ++ [body] →
      (∃ inner below, Phrase limited inner below part ∧ (level.floor ≤ depth → inner.floor ≤ below)) ∨
        ∃ kinds, Leaf kinds part := by
    intro name body parameters level inner depth below hname hparameters hbody hbelow hinner hp
    simp only [List.cons_append, List.mem_cons, List.mem_append, List.not_mem_nil, or_false] at hp
    obtain rfl | hp | rfl := hp
    · exact .inr ⟨_, hname hpresent⟩
    · exact ofPhrase (hparameters part hp) hbelow
    · exact ofPhrase hbody fun h => Nat.le_trans hinner (hbelow h)
  induction h with
  | leaf hleaf => simp [hleaf.parts_eq_nil] at hp
  | word | jump => cases hp
  | ofNew _ ih | ofHead _ ih | ofMember _ ih | ofOperand _ ih | ofUnary _ ih | ofAssignment _ ih => exact ih hp
  | ofBinary _ _ ih | ofBlock _ _ ih =>
    obtain ⟨inner, below, hphrase, hfloor⟩ | hleaf := ih hp
    · exact ofPhrase hphrase fun h => hfloor (Nat.succ_le_succ h)
    · exact .inr hleaf
  | array h | object h | block h | «variables» _ h =>
    exact ofPhrase (h part hp) (by simp only [Level.floor]; omega)
  | parenthesized h | evaluate _ h | variableStatement _ h | leading _ _ h | trailing _ h =>
    obtain rfl := List.mem_singleton.mp hp
    exact ofPhrase h (by simp only [Level.floor]; omega)
  | exit _ _ h =>
    obtain rfl := List.mem_singleton.mp hp
    exact ofPhrase (h hpresent) (by simp only [Level.floor]; omega)
  | functionExpression hname hparameters hbody =>
    exact ofFunction hname hparameters hbody Nat.le_of_succ_le (Nat.le_refl _) hp
  | functionDeclaration _ hname hparameters hbody =>
    exact ofFunction (fun _ => hname) hparameters hbody Nat.succ_le_succ (Nat.le_refl _) hp
  | arrowBlock _ hparameters hbody | arrowExpression _ hparameters hbody =>
    exact ofFunction (by rintro ⟨⟩) hparameters hbody Nat.le_succ_of_le (Nat.le_refl _) hp
  | property hname hvalue =>
    obtain rfl | hp := List.mem_cons.mp hp
    · exact .inr ⟨_, hname⟩
    · obtain rfl := List.mem_singleton.mp hp
      exact ofPhrase hvalue id
  | shorthand hname =>
    obtain rfl | hp := List.mem_cons.mp hp
    · exact .inr ⟨_, hname⟩
    · obtain rfl := List.mem_singleton.mp hp
      cases hpresent
  | parameter hname hvalue | «variable» hname hvalue =>
    obtain rfl | hp := List.mem_cons.mp hp
    · exact .inr ⟨_, hname⟩
    · obtain rfl := List.mem_singleton.mp hp
      exact ofPhrase (hvalue hpresent) id
  | newListed hcallee _ harguments | call hcallee _ _ harguments =>
    obtain rfl | hp := List.mem_cons.mp hp
    · exact ofPhrase hcallee id
    · exact ofPhrase (harguments part hp) (by simp only [Level.floor]; omega)
  | newBare hcallee =>
    obtain rfl := List.mem_singleton.mp hp
    exact ofPhrase hcallee id
  | access hobject _ _ hkey =>
    obtain rfl | hp := List.mem_cons.mp hp
    · exact ofPhrase hobject id
    · obtain rfl := List.mem_singleton.mp hp
      exact .inr ⟨_, hkey⟩
  | element hleft _ _ hright | operator _ _ hleft _ hright | assign _ hleft _ _ hright
  | comma hleft _ hright =>
    obtain rfl | hp := List.mem_cons.mp hp
    · exact ofPhrase hleft (by simp only [Level.floor]; omega)
    · obtain rfl := List.mem_singleton.mp hp
      exact ofPhrase hright (by simp only [Level.floor]; omega)
  | conditional _ hcondition htrue hfalse =>
    simp only [Node.parts, Shape.parts, List.mem_cons, List.not_mem_nil, or_false] at hp
    obtain rfl | rfl | rfl := hp
    · exact ofPhrase hcondition Nat.succ_le_succ
    · exact ofPhrase htrue Nat.le_succ_of_le
    · exact ofPhrase hfalse Nat.le_succ_of_le
  | branch _ hcondition hthen _ helse =>
    simp only [Node.parts, Shape.parts, List.mem_cons, List.not_mem_nil, or_false] at hp
    obtain rfl | rfl | rfl := hp
    · exact ofPhrase hcondition Nat.succ_le_succ
    · exact ofPhrase hthen Nat.le_succ_of_le
    · exact ofPhrase (helse hpresent) Nat.le_succ_of_le
  | forLoop _ hlist hfirst hcondition hupdate hbody =>
    simp only [Node.parts, Shape.parts, List.mem_cons, List.not_mem_nil, or_false] at hp
    obtain rfl | rfl | rfl | rfl := hp
    · cases hk : part.isKind .variableList with
      | true => exact ofPhrase (hlist hk) Nat.succ_le_succ
      | false => exact ofPhrase (hfirst hpresent hk) Nat.succ_le_succ
    · exact ofPhrase (hcondition hpresent) Nat.succ_le_succ
    · exact ofPhrase (hupdate hpresent) Nat.succ_le_succ
    · exact ofPhrase hbody Nat.le_succ_of_le
  | whileLoop _ hcondition hbody | doLoop _ hcondition hbody =>
    simp only [Node.parts, Shape.parts, List.mem_cons, List.not_mem_nil, or_false] at hp
    obtain rfl | rfl | rfl | rfl := hp
    · cases hpresent
    · exact ofPhrase hcondition Nat.succ_le_succ
    · cases hpresent
    · exact ofPhrase hbody Nat.le_succ_of_le

theorem Phrase.part (h : Phrase limited level depth node) :
    ∀ part ∈ node.parts, part.isPresent → IsPhrase limited part :=
  fun part hp hpresent => (h.part_floor part hp hpresent).imp_left
    fun ⟨inner, below, hphrase, _⟩ => ⟨inner, below, hphrase⟩

theorem IsPhrase.within {root : Node} (h : IsPhrase limited root) (hw : node.Within root)
    (hpresent : node.isPresent) : IsPhrase limited node := by
  induction hw with
  | self => exact h
  | @part info shape part hp hw ih =>
    have hpart : part.isPresent := by
      cases hw with
      | self => exact hpresent
      | part => rfl
    obtain ⟨level, depth, hphrase⟩ | ⟨kinds, hleaf⟩ := h
    · exact ih (hphrase.part part hp hpart)
    · have hnone : shape.parts = [] := hleaf.parts_eq_nil
      simp [hnone] at hp

theorem IsPhrase.call {info : Info} {isNew isListed : Bool} {callee : Node} {arguments : List Node}
    (h : IsPhrase limited (.mk info (.call isNew callee isListed arguments))) :
    callee.isPresent ∧ ∀ argument ∈ arguments, argument.isPresent := by
  obtain ⟨level, depth, hphrase⟩ | ⟨kinds, hleaf⟩ := h
  · generalize hnode : Node.mk info (.call isNew callee isListed arguments) = node at hphrase
    induction hphrase with
    | leaf hleaf => cases hleaf <;> cases hnode
    | ofNew _ ih | ofHead _ ih | ofMember _ ih | ofOperand _ ih | ofUnary _ ih | ofBinary _ _ ih
    | ofAssignment _ ih | ofBlock _ _ ih => exact ih hnode
    | newListed hcallee _ harguments | call hcallee _ _ harguments =>
      cases hnode
      exact ⟨hcallee.isPresent, fun argument ha => (harguments argument ha).isPresent⟩
    | newBare hcallee =>
      cases hnode
      exact ⟨hcallee.isPresent, nofun⟩
    | _ => cases hnode
  · cases hleaf

theorem IsPhrase.access {info : Info} {isComputed : Bool} {object key : Node}
    (h : IsPhrase limited (.mk info (.access isComputed object key))) :
    object.isPresent ∧ key.isPresent := by
  obtain ⟨level, depth, hphrase⟩ | ⟨kinds, hleaf⟩ := h
  · generalize hnode : Node.mk info (.access isComputed object key) = node at hphrase
    induction hphrase with
    | leaf hleaf => cases hleaf <;> cases hnode
    | ofNew _ ih | ofHead _ ih | ofMember _ ih | ofOperand _ ih | ofUnary _ ih | ofBinary _ _ ih
    | ofAssignment _ ih | ofBlock _ _ ih => exact ih hnode
    | access hobject _ _ hkey =>
      cases hnode
      exact ⟨hobject.isPresent, by cases hkey <;> rfl⟩
    | element hobject _ _ hkey =>
      cases hnode
      exact ⟨hobject.isPresent, hkey.isPresent⟩
    | _ => cases hnode
  · cases hleaf

theorem IsPhrase.block {info : Info} {statements : List Node}
    (h : IsPhrase limited (.mk info (.block statements))) :
    ∀ statement ∈ statements, statement.isPresent := by
  obtain ⟨level, depth, hphrase⟩ | ⟨kinds, hleaf⟩ := h
  · generalize hnode : Node.mk info (.block statements) = node at hphrase
    induction hphrase with
    | leaf hleaf => cases hleaf <;> cases hnode
    | ofNew _ ih | ofHead _ ih | ofMember _ ih | ofOperand _ ih | ofUnary _ ih | ofBinary _ _ ih
    | ofAssignment _ ih | ofBlock _ _ ih => exact ih hnode
    | block hstatements =>
      cases hnode
      exact fun statement hs => (hstatements statement hs).isPresent
    | _ => cases hnode
  · cases hleaf

def IsValue (node : Node) : Prop :=
  ∃ limited level depth, Phrase limited level depth node ∧
    (level = .assignment ∨ ∃ links, level = .member true links)

theorem IsValue.isPresent (h : IsValue node) : node.isPresent := by
  obtain ⟨limited, level, depth, hphrase, -⟩ := h
  exact hphrase.isPresent

theorem IsPhrase.call_spec {info : Info} {isListed : Bool} {callee : Node} {arguments : List Node}
    (h : IsPhrase limited (.mk info (.call false callee isListed arguments))) :
    info.flags = {} ∧ isListed = true ∧
      (∃ depth links, Phrase limited (.member true links) depth callee) ∧
      ∀ argument ∈ arguments, IsValue argument := by
  obtain ⟨level, depth, hphrase⟩ | ⟨kinds, hleaf⟩ := h
  · generalize hnode : Node.mk info (.call false callee isListed arguments) = node at hphrase
    induction hphrase with
    | leaf hleaf => cases hleaf <;> cases hnode
    | ofNew _ ih | ofHead _ ih | ofMember _ ih | ofOperand _ ih | ofUnary _ ih | ofBinary _ _ ih
    | ofAssignment _ ih | ofBlock _ _ ih => exact ih hnode
    | call hcallee _ _ harguments =>
      cases hnode
      exact ⟨rfl, rfl, ⟨_, _, hcallee⟩, fun argument ha => ⟨_, _, _, harguments argument ha, .inl rfl⟩⟩
    | _ => cases hnode
  · cases hleaf

theorem Phrase.object_isValue {links : Nat} {info : Info} {isComputed : Bool} {object key : Node}
    (h : Phrase limited (.member true links) depth (.mk info (.access isComputed object key))) :
    IsValue object := by
  cases h with
  | access hobject _ _ _ | element hobject _ _ _ => exact ⟨_, _, _, hobject, .inr ⟨_, rfl⟩⟩
  | ofHead hhead =>
    cases hhead with
    | leaf hleaf => cases hleaf
    | ofNew hnew => cases hnew

def IsFile (limited : Bool) (root : Node) : Prop :=
  ∃ id fin name statements, root = .mk ⟨id, 0, fin, {}⟩ (.file name statements) ∧
    ∀ statement ∈ statements, Phrase limited .statement 0 statement

theorem IsFile.isKind {root : Node} (h : IsFile limited root) : root.isKind .file := by
  obtain ⟨id, fin, name, statements, rfl, -⟩ := h
  rfl

theorem IsFile.within {root : Node} (h : IsFile limited root) (hw : node.Within root)
    (hpresent : node.isPresent) : node = root ∨ IsPhrase limited node := by
  obtain ⟨id, fin, name, statements, rfl, hall⟩ := h
  cases hw with
  | self => exact .inl rfl
  | part hp hw => exact .inr (IsPhrase.within (.inl ⟨_, _, hall _ hp⟩) hw hpresent)

end ArrayLoops.Grammar
