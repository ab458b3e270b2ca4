/-!
# Kinds of tokens

The kinds are numbered in the order of the list `Kind.all`. A kind with a fixed spelling is a
punctuation mark or a reserved word; the other five have the spelling of their occurrence.
-/

namespace ArrayLoops.Token

inductive Kind where
  | unknown | endOfFile | number | string | identifier | openBrace | closeBrace | openParen
  | closeParen | openBracket | closeBracket | dot | semicolon | comma | question | colon | arrow
  | less | greater | lessEquals | greaterEquals | equals | notEquals | identical | notIdentical
  | plus | minus | times | power | divide | remainder | increment | decrement | shiftLeft
  | shiftRight | shiftRightUnsigned | bitAnd | bitOr | bitXor | not | bitNot | and | or
  | coalesce | assign | plusAssign | minusAssign | timesAssign | divideAssign | remainderAssign
  | breakWord | constWord | continueWord | doWord | elseWord | falseWord | forWord | functionWord
  | ifWord | inWord | instanceofWord | letWord | newWord | nullWord | returnWord | thisWord
  | throwWord | trueWord | typeofWord | varWord | voidWord | whileWord
  deriving DecidableEq, Repr, Inhabited

namespace Kind

def all : List Kind := [
  .unknown, .endOfFile, .number, .string, .identifier, .openBrace, .closeBrace, .openParen,
  .closeParen, .openBracket, .closeBracket, .dot, .semicolon, .comma, .question, .colon, .arrow,
  .less, .greater, .lessEquals, .greaterEquals, .equals, .notEquals, .identical, .notIdentical,
  .plus, .minus, .times, .power, .divide, .remainder, .increment, .decrement, .shiftLeft,
  .shiftRight, .shiftRightUnsigned, .bitAnd, .bitOr, .bitXor, .not, .bitNot, .and, .or,
  .coalesce, .assign, .plusAssign, .minusAssign, .timesAssign, .divideAssign, .remainderAssign,
  .breakWord, .constWord, .continueWord, .doWord, .elseWord, .falseWord, .forWord, .functionWord,
  .ifWord, .inWord, .instanceofWord, .letWord, .newWord, .nullWord, .returnWord, .thisWord,
  .throwWord, .trueWord, .typeofWord, .varWord, .voidWord, .whileWord]

def code (kind : Kind) : Nat := kind.ctorIdx

def ofCode? (n : Nat) : Option Kind := all[n]?

def name : Kind → String
  | .unknown => "Unknown"
  | .endOfFile => "EndOfFileToken"
  | .number => "NumericLiteral"
  | .string => "StringLiteral"
  | .identifier => "Identifier"
  | .openBrace => "OpenBraceToken"
  | .closeBrace => "CloseBraceToken"
  | .openParen => "OpenParenToken"
  | .closeParen => "CloseParenToken"
  | .openBracket => "OpenBracketToken"
  | .closeBracket => "CloseBracketToken"
  | .dot => "DotToken"
  | .semicolon => "SemicolonToken"
  | .comma => "CommaToken"
  | .question => "QuestionToken"
  | .colon => "ColonToken"
  | .arrow => "EqualsGreaterThanToken"
  | .less => "LessThanToken"
  | .greater => "GreaterThanToken"
  | .lessEquals => "LessThanEqualsToken"
  | .greaterEquals => "GreaterThanEqualsToken"
  | .equals => "EqualsEqualsToken"
  | .notEquals => "ExclamationEqualsToken"
  | .identical => "EqualsEqualsEqualsToken"
  | .notIdentical => "ExclamationEqualsEqualsToken"
  | .plus => "PlusToken"
  | .minus => "MinusToken"
  | .times => "AsteriskToken"
  | .power => "AsteriskAsteriskToken"
  | .divide => "SlashToken"
  | .remainder => "PercentToken"
  | .increment => "PlusPlusToken"
  | .decrement => "MinusMinusToken"
  | .shiftLeft => "LessThanLessThanToken"
  | .shiftRight => "GreaterThanGreaterThanToken"
  | .shiftRightUnsigned => "GreaterThanGreaterThanGreaterThanToken"
  | .bitAnd => "AmpersandToken"
  | .bitOr => "BarToken"
  | .bitXor => "CaretToken"
  | .not => "ExclamationToken"
  | .bitNot => "TildeToken"
  | .and => "AmpersandAmpersandToken"
  | .or => "BarBarToken"
  | .coalesce => "QuestionQuestionToken"
  | .assign => "EqualsToken"
  | .plusAssign => "PlusEqualsToken"
  | .minusAssign => "MinusEqualsToken"
  | .timesAssign => "AsteriskEqualsToken"
  | .divideAssign => "SlashEqualsToken"
  | .remainderAssign => "PercentEqualsToken"
  | .breakWord => "BreakKeyword"
  | .constWord => "ConstKeyword"
  | .continueWord => "ContinueKeyword"
  | .doWord => "DoKeyword"
  | .elseWord => "ElseKeyword"
  | .falseWord => "FalseKeyword"
  | .forWord => "ForKeyword"
  | .functionWord => "FunctionKeyword"
  | .ifWord => "IfKeyword"
  | .inWord => "InKeyword"
  | .instanceofWord => "InstanceOfKeyword"
  | .letWord => "LetKeyword"
  | .newWord => "NewKeyword"
  | .nullWord => "NullKeyword"
  | .returnWord => "ReturnKeyword"
  | .thisWord => "ThisKeyword"
  | .throwWord => "ThrowKeyword"
  | .trueWord => "TrueKeyword"
  | .typeofWord => "TypeOfKeyword"
  | .varWord => "VarKeyword"
  | .voidWord => "VoidKeyword"
  | .whileWord => "WhileKeyword"

/-- The text of a punctuation mark or reserved word, and no text for the other kinds. -/
def spelling : Kind → String
  | .openBrace => "\x7b"
  | .closeBrace => "\x7d"
  | .openParen => "("
  | .closeParen => ")"
  | .openBracket => "["
  | .closeBracket => "]"
  | .dot => "."
  | .semicolon => ";"
  | .comma => ","
  | .question => "?"
  | .colon => ":"
  | .arrow => "=>"
  | .less => "<"
  | .greater => ">"
  | .lessEquals => "<="
  | .greaterEquals => ">="
  | .equals => "=="
  | .notEquals => "!="
  | .identical => "==="
  | .notIdentical => "!=="
  | .plus => "+"
  | .minus => "-"
  | .times => "*"
  | .power => "**"
  | .divide => "/"
  | .remainder => "%"
  | .increment => "++"
  | .decrement => "--"
  | .shiftLeft => "<<"
  | .shiftRight => ">>"
  | .shiftRightUnsigned => ">>>"
  | .bitAnd => "&"
  | .bitOr => "|"
  | .bitXor => "^"
  | .not => "!"
  | .bitNot => "~"
  | .and => "&&"
  | .or => "||"
  | .coalesce => "??"
  | .assign => "="
  | .plusAssign => "+="
  | .minusAssign => "-="
  | .timesAssign => "*="
  | .divideAssign => "/="
  | .remainderAssign => "%="
  | .breakWord => "break"
  | .constWord => "const"
  | .continueWord => "continue"
  | .doWord => "do"
  | .elseWord => "else"
  | .falseWord => "false"
  | .forWord => "for"
  | .functionWord => "function"
  | .ifWord => "if"
  | .inWord => "in"
  | .instanceofWord => "instanceof"
  | .letWord => "let"
  | .newWord => "new"
  | .nullWord => "null"
  | .returnWord => "return"
  | .thisWord => "this"
  | .throwWord => "throw"
  | .trueWord => "true"
  | .typeofWord => "typeof"
  | .varWord => "var"
  | .voidWord => "void"
  | .whileWord => "while"
  | .unknown | .endOfFile | .number | .string | .identifier => ""

def reservedWords : List Kind := [
  .breakWord, .constWord, .continueWord, .doWord, .elseWord, .falseWord, .forWord, .functionWord,
  .ifWord, .inWord, .instanceofWord, .letWord, .newWord, .nullWord, .returnWord, .thisWord,
  .throwWord, .trueWord, .typeofWord, .varWord, .voidWord, .whileWord]

/-- The punctuation marks, longer ones before those they start with. -/
def punctuation : List Kind := [
  .identical, .notIdentical, .shiftRightUnsigned, .arrow, .lessEquals, .greaterEquals, .equals,
  .notEquals, .power, .increment, .decrement, .shiftLeft, .shiftRight, .and, .or, .coalesce,
  .plusAssign, .minusAssign, .timesAssign, .divideAssign, .remainderAssign, .openBrace,
  .closeBrace, .openParen, .closeParen, .openBracket, .closeBracket, .dot, .semicolon, .comma,
  .question, .colon, .less, .greater, .plus, .minus, .times, .divide, .remainder, .bitAnd,
  .bitOr, .bitXor, .not, .bitNot, .assign]

def ofWord? (text : String) : Option Kind := reservedWords.find? fun kind => kind.spelling == text

def isReservedWord (kind : Kind) : Bool := reservedWords.contains kind

def isAssignment : Kind → Bool
  | .assign | .plusAssign | .minusAssign | .timesAssign | .divideAssign | .remainderAssign => true
  | _ => false

def isLogical : Kind → Bool
  | .and | .or | .coalesce => true
  | _ => false

/-- How tightly a binary operator binds; zero for what is none. -/
def precedence : Kind → Nat
  | .coalesce | .or => 1
  | .and => 2
  | .bitOr => 3
  | .bitXor => 4
  | .bitAnd => 5
  | .equals | .notEquals | .identical | .notIdentical => 6
  | .less | .greater | .lessEquals | .greaterEquals | .instanceofWord | .inWord => 7
  | .shiftLeft | .shiftRight | .shiftRightUnsigned => 8
  | .plus | .minus => 9
  | .times | .divide | .remainder => 10
  | .power => 11
  | _ => 0

theorem ofCode?_code (kind : Kind) : ofCode? kind.code = some kind := by
  cases kind <;> rfl

theorem ofWord?_spelling (kind : Kind) (h : kind ∈ reservedWords) :
    ofWord? kind.spelling = some kind := by
  revert h
  cases kind <;> decide

end Kind

end ArrayLoops.Token
