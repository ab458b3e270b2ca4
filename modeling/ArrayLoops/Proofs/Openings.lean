import ArrayLoops.Proofs.Phrases
import Mathlib.Data.List.Forall2

/-!
# How phrases begin

What a parse can tell from the first words of a phrase: the kind of the first word says which level
it can stand for, and an arrow function is told from an expression in parentheses by what stands
behind the parenthesis that matches the first one.
-/

namespace ArrayLoops.Grammar

open Token (Kind Word)
open ArrayLoops.Tree (Flags Info Node Shape)
open Spelling (sign)

variable {limited : Bool} {level : Level} {depth : Nat} {node : Node}

def nextKind (ws : List Spelling) : Kind := (ws.head?.map Spelling.kind).getD .endOfFile

@[simp] theorem nextKind_nil : nextKind [] = .endOfFile := rfl

@[simp] theorem nextKind_cons (word : Spelling) (ws : List Spelling) :
    nextKind (word :: ws) = word.kind := rfl

theorem firstKind?_eq (h : words node ≠ []) (ws : List Spelling) :
    firstKind? node = some (nextKind (words node ++ ws)) := by
  unfold firstKind?
  cases hwords : words node with
  | nil => exact absurd hwords h
  | cons => rfl

def startsExpression : Kind → Bool
  | .identifier | .number | .string | .thisWord | .trueWord | .falseWord | .nullWord
  | .functionWord | .newWord | .typeofWord | .voidWord | .openParen | .openBracket | .openBrace
  | .not | .bitNot | .plus | .minus | .increment | .decrement => true
  | _ => false

theorem startsExpression_eq (s : State) :
    s.startsExpression = startsExpression s.current.kind := by
  rw [State.startsExpression]
  cases s.current.kind <;> rfl

def startsOperand (kind : Kind) : Bool := startsExpression kind && !isLeadingOperator kind

def startsStatement : Kind → Bool
  | .varWord | .constWord | .letWord | .ifWord | .forWord | .whileWord | .doWord | .returnWord
  | .throwWord | .breakWord | .continueWord | .semicolon => true
  | kind => startsExpression kind

def isDeclaring (kind : Kind) : Bool := kind == .varWord || kind == .letWord || kind == .constWord

def Level.begins : Level → Kind → Bool
  | .statement => startsStatement
  | .block => (· == .openBrace)
  | .property => isKey
  | .parameter | .variable => isBinding
  | .variables => isDeclaring
  | .expression _ | .assignment | .binary .. | .unary => startsExpression
  | .operand | .member .. | .head | .new => startsOperand

theorem startsStatement_of_startsExpression {kind : Kind} (h : startsExpression kind) :
    startsStatement kind := by
  revert h
  cases kind <;> decide

theorem isDeclaring_declaringKind (flags : Flags) : isDeclaring (declaringKind flags) := by
  unfold declaringKind
  split
  · rfl
  · split <;> rfl

theorem Leaf.begins {kinds : Kind → Bool} (h : Leaf kinds node) (ws : List Spelling) :
    kinds (nextKind (words node ++ ws)) := by
  obtain ⟨word, hwords, hkinds, -⟩ := h.words_eq
  rw [hwords]
  exact hkinds

theorem Phrase.begins (h : Phrase limited level depth node) (ws : List Spelling) :
    level.begins (nextKind (words node ++ ws)) := by
  induction h generalizing ws with
  | leaf hleaf =>
    have hoperand : ∀ kind, isOperand kind → startsOperand kind := by
      intro kind
      cases kind <;> decide
    exact hoperand _ (hleaf.begins ws)
  | @word _ _ _ _ kind hword =>
    have hstarts : ∀ kind, isValueWord kind → startsOperand kind := by
      intro kind
      cases kind <;> decide
    exact hstarts kind hword
  | @leading _ _ _ _ operator _ hoperator =>
    have hstarts : ∀ kind, isLeadingOperator kind → startsExpression kind := by
      intro kind
      cases kind <;> decide
    exact hstarts operator hoperator
  | property hname =>
    rw [words_property, List.append_assoc]
    exact hname.begins _
  | shorthand hname =>
    have hkey : ∀ kind, isMemberName kind → isKey kind := by simp +contextual [isKey]
    rw [words_property, List.append_assoc]
    exact hkey _ (hname.begins _)
  | parameter hname | «variable» hname =>
    rw [words_mk]
    change isBinding (nextKind (words _ ++ _ ++ ws))
    rw [List.append_assoc]
    exact hname.begins _
  | ofNew _ ih | ofHead _ ih | ofMember _ ih | ofUnary _ ih | ofBinary _ _ ih
  | ofAssignment _ ih => exact ih ws
  | ofOperand _ ih => exact (Bool.and_eq_true_iff.mp (ih ws)).1
  | ofBlock _ _ ih =>
    have hbrace := beq_iff_eq.mp (ih ws)
    rw [hbrace]
    rfl
  | access _ _ _ _ ih | trailing _ _ ih | call _ _ _ _ ih | element _ _ _ _ ih
  | operator _ _ _ _ _ ih | assign _ _ _ _ _ ih | comma _ _ _ ih =>
    simp only [words_access, words_trailing, words_call, words_element, words_binary,
      List.append_assoc]
    exact ih _
  | conditional _ _ _ _ ih =>
    simp only [words_conditional, List.append_assoc]
    exact ih _
  | «variables» =>
    rw [words_variables]
    exact isDeclaring_declaringKind _
  | variableStatement _ _ ih =>
    have hdeclaring : ∀ kind, isDeclaring kind → startsStatement kind := by
      intro kind
      cases kind <;> decide
    rw [words_variableStatement, List.append_assoc]
    exact hdeclaring _ (ih _)
  | evaluate _ _ _ _ ih =>
    rw [words_evaluate, List.append_assoc]
    exact startsStatement_of_startsExpression (ih _)
  | jump _ hkind => rcases hkind with rfl | rfl | rfl <;> rfl
  | @exit _ _ _ _ _ isThrow =>
    rw [words_exit]
    cases isThrow <;> rfl
  | _ => rfl

def isFlat (kind : Kind) : Bool := kind != .openParen && kind != .closeParen && kind != .endOfFile

/-- The words have as many closing as opening parentheses, each behind the one that it closes. -/
inductive Balanced : List Spelling → Prop where
  | nil : Balanced []
  | word {word : Spelling} : isFlat word.kind → Balanced [word]
  | append {ws others : List Spelling} : Balanced ws → Balanced others → Balanced (ws ++ others)
  | group {ws : List Spelling} {first last : Spelling} : first.kind = .openParen →
    last.kind = .closeParen → Balanced ws → Balanced (first :: ws ++ [last])

namespace Balanced

variable {ws others : List Spelling}

theorem cons {kind : Kind} (h : Balanced ws)
    (hk : isFlat kind := by decide) : Balanced (sign kind :: ws) := by
  have hsign : Balanced [sign kind] := .word hk
  exact .append hsign h

theorem parens (h : Balanced ws) : Balanced (between .openParen .closeParen ws) :=
  .group rfl rfl h

theorem leaf {kinds : Kind → Bool} (h : Leaf kinds node)
    (hk : ∀ kind, kinds kind → isFlat kind) : Balanced (words node) := by
  obtain ⟨word, hwords, hkinds, -⟩ := h.words_eq
  rw [hwords]
  exact .word (hk _ hkinds)

theorem commas {items : List (List Spelling)} (h : ∀ item ∈ items, Balanced item) :
    Balanced (commas items) := by
  induction items with
  | nil => exact .nil
  | cons item rest ih =>
    have hitem := h item List.mem_cons_self
    cases rest with
    | nil => exact hitem
    | cons second rest =>
      exact .append hitem (.cons (ih fun other ho => h other (List.mem_cons_of_mem _ ho)))

theorem listed {nodes : List Node} (h : ∀ node ∈ nodes, Balanced (words node)) :
    Balanced (Grammar.commas (nodes.map words)) :=
  commas (by simpa using h)

theorem flatMap {nodes : List Node} (h : ∀ node ∈ nodes, Balanced (words node)) :
    Balanced (nodes.flatMap words) := by
  induction nodes with
  | nil => exact .nil
  | cons node rest ih =>
    rw [List.flatMap_cons]
    exact .append (h node List.mem_cons_self) (ih fun other ho => h other (List.mem_cons_of_mem _ ho))

theorem enclosed {first last : Kind} (h : Balanced ws)
    (hfirst : isFlat first := by decide)
    (hlast : isFlat last := by decide) :
    Balanced (between first last ws) :=
  .append (.cons h hfirst) (.word hlast)

theorem optional {part : Node} (h : part.isPresent → Balanced (words part)) :
    Balanced (words part) := by
  cases part with
  | absent => exact .nil
  | mk => exact h rfl

theorem announced {kind : Kind} {value : Node} (h : value.isPresent → Balanced (words value))
    (hk : isFlat kind := by decide) :
    Balanced (Grammar.announced kind (value, words value)) := by
  unfold Grammar.announced
  split
  · exact .cons (h ‹_›) hk
  · exact .nil

theorem joinFirst (h : Balanced ws) : Balanced (Grammar.joinFirst ws) := by
  induction h with
  | nil => exact .nil
  | word hflat => exact .word hflat
  | @append ws others hws hothers ih ihOthers =>
    cases ws with
    | nil => exact ihOthers
    | cons => exact .append ih hothers
  | group hfirst hlast h => exact .group hfirst hlast h

end Balanced

theorem Phrase.balanced (h : Phrase limited level depth node) : Balanced (words node) := by
  have hname : ∀ kind, isMemberName kind → isFlat kind := by
    intro kind
    cases kind <;> decide
  have hbinding : ∀ kind, isBinding kind → isFlat kind := by
    intro kind
    cases kind <;> decide
  have hword : ∀ kind, isValueWord kind → isFlat kind := by
    intro kind
    cases kind <;> decide
  have hleading : ∀ kind, isLeadingOperator kind → isFlat kind := by
    intro kind
    cases kind <;> decide
  have hbinary : ∀ kind : Kind, kind.precedence ≠ 0 → isFlat kind := by
    intro kind
    cases kind <;> decide
  have hassignment : ∀ kind : Kind, kind.isAssignment →
      isFlat kind := by
    intro kind
    cases kind <;> decide
  have hdeclaring : ∀ kind : Kind, isDeclaring kind →
      isFlat kind := by
    intro kind
    cases kind <;> decide
  induction h with
  | leaf hleaf =>
    refine .leaf hleaf fun kind => ?_
    cases kind <;> decide
  | property hleaf _ ih =>
    rw [words_property]
    refine .append (.leaf hleaf fun kind => ?_) (.announced fun _ => ih)
    cases kind <;> decide
  | shorthand hleaf =>
    rw [words_property]
    exact .append (.leaf hleaf hname) .nil
  | word hkind => exact .word (hword _ hkind)
  | parenthesized _ ih => exact .parens ih
  | array _ ih => rw [words_array]; exact .enclosed (.listed ih)
  | object _ ih => rw [words_object]; exact .enclosed (.listed ih)
  | functionExpression hleaf _ _ ih ihBody =>
    rw [words_function (by decide)]
    refine .append (.append (.cons (.optional fun hpresent => ?_)) (.parens (.listed ih))) ihBody
    exact .leaf (hleaf hpresent) hbinding
  | functionDeclaration _ hleaf _ _ ih ihBody =>
    rw [words_function (by decide)]
    exact .append (.append (.cons (.leaf hleaf hbinding)) (.parens (.listed ih))) ihBody
  | ofNew _ ih | ofHead _ ih | ofMember _ ih | ofOperand _ ih | ofUnary _ ih | ofBinary _ _ ih
  | ofAssignment _ ih | ofBlock _ _ ih => exact ih
  | newListed _ _ _ ih ihArguments =>
    rw [words_newListed]
    exact .append (.cons ih) (.parens (.listed ihArguments))
  | newBare _ ih =>
    rw [words_newBare]
    exact .cons ih
  | access _ _ _ hleaf ih =>
    rw [words_access]
    exact .append ih (.cons (.leaf hleaf hname))
  | element _ _ _ _ ih ihKey =>
    rw [words_element]
    exact .append ih (.enclosed ihKey)
  | call _ _ _ _ ih ihArguments =>
    rw [words_call]
    exact .append ih (.parens (.listed ihArguments))
  | trailing hoperator _ ih =>
    rw [words_trailing]
    rcases hoperator with rfl | rfl <;> exact .append ih (.word rfl)
  | leading hoperator _ _ ih =>
    rw [words_leading]
    exact .cons ih (hleading _ hoperator)
  | operator hoperator _ _ _ _ ih ihRight =>
    rw [words_binary]
    exact .append ih (.cons ihRight (hbinary _ hoperator))
  | assign _ _ _ hoperator _ ih ihRight =>
    rw [words_binary]
    exact .append ih (.cons ihRight (hassignment _ hoperator))
  | conditional _ _ _ _ ih ihTrue ihFalse =>
    rw [words_conditional]
    exact .append (.append ih (.cons ihTrue)) (.cons ihFalse)
  | arrowBlock _ _ _ ih ihBody | arrowExpression _ _ _ _ ih ihBody =>
    have harrow : Balanced [(sign .arrow).join] := .word rfl
    rw [words_arrow]
    exact .append (.parens (.listed ih)) (.append harrow ihBody)
  | comma _ _ _ ih ihRight =>
    rw [words_binary]
    exact .append ih (.cons ihRight)
  | parameter hleaf _ ih =>
    rw [words_parameter]
    exact .append (.leaf hleaf hbinding) (.announced ih)
  | «variable» hleaf _ ih =>
    rw [words_variable]
    exact .append (.leaf hleaf hbinding) (.announced ih)
  | «variables» _ _ ih =>
    rw [words_variables]
    exact .cons (.listed ih) (hdeclaring _ (isDeclaring_declaringKind _))
  | block _ ih =>
    rw [words_block]
    exact .enclosed (.flatMap ih)
  | variableStatement _ _ ih =>
    rw [words_variableStatement]
    exact .append ih (.cons .nil)
  | evaluate _ _ _ _ ih =>
    rw [words_evaluate]
    exact .append ih (.cons .nil)
  | branch _ _ _ _ _ ih ihThen ihElse =>
    rw [words_branch]
    exact .append (.append (.cons (.parens ih)) ihThen) (.announced ihElse)
  | forLoop _ _ _ _ _ _ ihList ihFirst ihSecond ihThird ihBody =>
    have hinitializer : Balanced (words _) := .optional fun hpresent =>
      (Bool.eq_false_or_eq_true _).elim ihList (ihFirst hpresent)
    rw [words_for]
    exact .append (.cons (.parens (.append (.append hinitializer (.cons (.optional ihSecond)))
      (.cons (.optional ihThird))))) ihBody
  | whileLoop _ _ _ ih ihBody =>
    rw [words_while]
    exact .append (.cons (.parens ih)) ihBody
  | doLoop _ _ _ ih ihBody =>
    rw [words_doWhile]
    exact .append (.append (.cons ihBody) (.cons (.parens ih))) (.cons .nil)
  | @exit _ _ _ _ _ isThrow _ _ _ _ ih =>
    rw [words_exit]
    exact .append (.cons (.joinFirst (.optional ih)) (by cases isThrow <;> rfl)) (.cons .nil)
  | jump _ hkind =>
    rcases hkind with rfl | rfl | rfl
    · exact .cons (.cons .nil)
    · exact .cons (.cons .nil)
    · exact .cons .nil

structure Spells (token : Token) (spelling : Spelling) : Prop where
  word : token.word = spelling.word
  joined : spelling.joined → token.lineBreakBefore = false
  quiet : token.complaints = []

theorem Spells.kind {token : Token} {spelling : Spelling} (h : Spells token spelling) :
    token.kind = spelling.kind := congrArg Word.kind h.word

def Spelling.endOfFile : Spelling := ⟨⟨.endOfFile, "", ""⟩, false⟩

abbrev SpellAll : List Token → List Spelling → Prop := List.Forall₂ Spells

variable {tokens rest : List Token} {ws others : List Spelling}

theorem SpellAll.split (h : SpellAll tokens (ws ++ others)) :
    ∃ front back, tokens = front ++ back ∧ SpellAll front ws ∧ SpellAll back others :=
  ⟨_, _, (List.take_append_drop ws.length tokens).symm, List.forall₂_take_append _ _ _ h,
    List.forall₂_drop_append _ _ _ h⟩

theorem SpellAll.first {word : Spelling} (h : SpellAll tokens (word :: ws)) :
    ∃ token back, tokens = token :: back ∧ Spells token word ∧ SpellAll back ws := by
  obtain ⟨token, back, htoken, hback, rfl⟩ := List.forall₂_cons_right_iff.mp h
  exact ⟨token, back, rfl, htoken, hback⟩

theorem Balanced.arrowBehind (h : Balanced ws) (ht : SpellAll tokens ws) (rest : List Token)
    (count : Nat) :
    State.arrowBehind (count + 1) (tokens ++ rest) = State.arrowBehind (count + 1) rest := by
  induction h generalizing tokens rest count with
  | nil =>
    cases ht
    rfl
  | word hflat =>
    obtain ⟨token, back, rfl, htoken, hback⟩ := ht.first
    cases hback
    have hkind : isFlat token.kind := htoken.kind ▸ hflat
    rw [List.singleton_append, State.arrowBehind]
    revert hkind
    generalize token.kind = kind
    cases kind <;> simp [isFlat]
  | append _ _ ih ihOthers =>
    obtain ⟨front, back, rfl, hfront, hback⟩ := ht.split
    rw [List.append_assoc, ih hfront, ihOthers hback]
  | group hfirst hlast _ ih =>
    obtain ⟨front, back, rfl, hfront, hback⟩ := ht.split
    obtain ⟨opening, inner, rfl, hopening, hinner⟩ := hfront.first
    obtain ⟨closing, nothing, rfl, hclosing, hnothing⟩ := hback.first
    cases hnothing
    simp only [List.cons_append, List.append_assoc, State.arrowBehind, hopening.kind, hfirst]
    rw [ih hinner]
    simp [State.arrowBehind, hclosing.kind, hlast]

/-- The words do not begin like an arrow function. -/
inductive Plain : List Spelling → Prop where
  | word {word : Spelling} {ws : List Spelling} : word.kind ≠ .identifier → word.kind ≠ .openParen →
    Plain (word :: ws)
  | name {word : Spelling} {ws : List Spelling} : word.kind = .identifier → nextKind ws ≠ .arrow →
    Plain (word :: ws)
  | group {inner ws : List Spelling} : Balanced inner → nextKind ws ≠ .arrow →
    Plain (between .openParen .closeParen inner ++ ws)

namespace Plain

theorem nextKind_append_ne (h : nextKind ws ≠ .arrow) (ho : nextKind others ≠ .arrow) :
    nextKind (ws ++ others) ≠ .arrow := by
  cases ws with
  | nil => exact ho
  | cons => exact h

theorem append (h : Plain ws) (ho : nextKind others ≠ .arrow) : Plain (ws ++ others) := by
  cases h with
  | word hname hparen => exact .word hname hparen
  | name hname hnext => exact .name hname (nextKind_append_ne hnext ho)
  | group hinner hnext =>
    rw [List.append_assoc]
    exact .group hinner (nextKind_append_ne hnext ho)

theorem sign {kind : Kind} (hk : kind ≠ .identifier ∧ kind ≠ .openParen) : Plain (sign kind :: ws) :=
  .word hk.1 hk.2

end Plain

/-- The levels below that of assignments. -/
def Level.isOperation : Level → Bool
  | .binary .. | .unary | .operand | .member .. | .head | .new => true
  | _ => false

theorem Phrase.plain (h : Phrase limited level depth node) (hl : level.isOperation) :
    Plain (words node) := by
  have hword : ∀ kind, isValueWord kind → kind ≠ .identifier ∧ kind ≠ .openParen := by
    intro kind
    cases kind <;> decide
  have hleading : ∀ kind, isLeadingOperator kind → kind ≠ .identifier ∧ kind ≠ .openParen := by
    intro kind
    cases kind <;> decide
  induction h with
  | leaf hleaf =>
    obtain ⟨word, hwords, hkind, -⟩ := hleaf.words_eq
    have hoperand : ∀ kind, isOperand kind → kind ≠ .openParen := by
      intro kind
      cases kind <;> decide
    rw [hwords]
    by_cases hname : word.kind = .identifier
    · exact .name hname nofun
    · exact .word hname (hoperand _ hkind)
  | word hkind => exact .sign (hword _ hkind)
  | parenthesized h =>
    rw [words_parenthesized, ← List.append_nil (between _ _ _)]
    exact .group h.balanced nofun
  | array =>
    rw [words_array]
    exact .sign (by decide)
  | object =>
    rw [words_object]
    exact .sign (by decide)
  | functionExpression =>
    rw [words_function (by decide)]
    exact .sign (by decide)
  | newListed =>
    rw [words_newListed]
    exact .sign (by decide)
  | newBare =>
    rw [words_newBare]
    exact .sign (by decide)
  | ofNew _ ih | ofHead _ ih | ofMember _ ih | ofOperand _ ih | ofUnary _ ih => exact ih rfl
  | access _ _ _ _ ih =>
    rw [words_access]
    exact (ih rfl).append nofun
  | element _ _ _ _ ih =>
    rw [words_element]
    exact (ih rfl).append nofun
  | call _ _ _ _ ih =>
    rw [words_call]
    exact (ih rfl).append nofun
  | trailing hoperator _ ih =>
    rw [words_trailing]
    refine (ih rfl).append ?_
    rcases hoperator with rfl | rfl <;> nofun
  | leading hoperator =>
    rw [words_leading]
    exact .sign (hleading _ hoperator)
  | operator hoperator _ _ _ _ ih =>
    rw [words_binary]
    refine (ih rfl).append ?_
    rintro rfl
    exact hoperator rfl
  | _ => cases hl

section
variable {s : State}

theorem arrowFirst_eq_false (ht : SpellAll tokens (ws ++ [.endOfFile])) (h : nextKind ws ≠ .arrow) :
    State.arrowFirst tokens = false := by
  have hfirst : ∀ word rest, SpellAll tokens (word :: rest) → word.kind ≠ .arrow →
      State.arrowFirst tokens = false := by
    intro word rest ht hk
    obtain ⟨token, back, rfl, htoken, -⟩ := ht.first
    simp [State.arrowFirst, htoken.kind, hk]
  cases ws with
  | nil => exact hfirst _ _ ht nofun
  | cons word rest => exact hfirst _ _ ht h

/-- Behind a group in parentheses, an arrow decides. -/
theorem Balanced.startsArrow_eq (h : Balanced ws)
    (ht : SpellAll s.tokens (between .openParen .closeParen ws ++ others)) :
    ∃ back, SpellAll back others ∧ s.startsArrow = State.arrowFirst back := by
  simp only [between, List.cons_append, List.append_assoc, List.nil_append] at ht
  obtain ⟨opening, back, hcons, hopening, hback⟩ := ht.first
  obtain ⟨rfl, rfl⟩ := List.cons.inj hcons
  obtain ⟨front, back, hsplit, hfront, hback⟩ := hback.split
  obtain ⟨closing, back, rfl, hclosing, hback⟩ := hback.first
  refine ⟨back, hback, ?_⟩
  rw [State.startsArrow, hopening.kind]
  change State.arrowBehind 1 s.ahead = _
  rw [hsplit, h.arrowBehind hfront _ 0, State.arrowBehind, hclosing.kind]
  rfl

theorem Plain.not_startsArrow (h : Plain ws) (ht : SpellAll s.tokens (ws ++ [.endOfFile])) :
    s.startsArrow = false := by
  cases h with
  | word hname hparen =>
    obtain ⟨token, back, hcons, htoken, -⟩ := ht.first
    obtain ⟨rfl, rfl⟩ := List.cons.inj hcons
    rw [← htoken.kind] at hname hparen
    unfold State.startsArrow
    split
    · exact absurd ‹_› hname
    · exact absurd ‹_› hparen
    · rfl
  | name hname hnext =>
    obtain ⟨token, back, hcons, htoken, hback⟩ := ht.first
    obtain ⟨rfl, rfl⟩ := List.cons.inj hcons
    rw [State.startsArrow, htoken.kind, hname]
    exact arrowFirst_eq_false hback hnext
  | group hinner hnext =>
    rw [List.append_assoc] at ht
    obtain ⟨back, hback, heq⟩ := hinner.startsArrow_eq ht
    rw [heq]
    exact arrowFirst_eq_false hback hnext

theorem Balanced.startsArrow (h : Balanced ws)
    (ht : SpellAll s.tokens (between .openParen .closeParen ws ++ (sign .arrow).join :: others)) :
    s.startsArrow = true := by
  obtain ⟨back, hback, heq⟩ := h.startsArrow_eq ht
  obtain ⟨arrow, back, rfl, harrow, -⟩ := hback.first
  simp [heq, State.arrowFirst, harrow.kind, harrow.joined rfl]

end

end ArrayLoops.Grammar
