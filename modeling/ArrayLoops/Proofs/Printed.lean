import ArrayLoops.Layout.Tree
import ArrayLoops.Proofs.Documents
import ArrayLoops.Proofs.ParsedStatements
import ArrayLoops.Proofs.RereadStatements

/-!
# Printed phrases

A phrase that is printed without directives is written with its words. The only words that printing
runs together are a number of digits alone and a point behind it, so there must be no such number
before the point of an access.
-/

namespace ArrayLoops.Layout

open Grammar (Leaf Level Phrase Spelling StartsLine between commas joinFirst words)
open Grammar.Spelling (sign)
open Lowering (Directives)
open Token (Kind Word isDivider)
open ArrayLoops.Tree (Arena Info Node Shape)

attribute [local simp] Shape.parts

namespace Doc

/-- The document without the numbers of the nodes in it. -/
def bare : Doc → Doc
  | append first second => first.bare ++ second.bare
  | nest doc => nest doc.bare
  | node _ doc => doc.bare
  | doc => doc

theorem put_bare (doc : Doc) (level : Nat) (start : Bool) : doc.bare.put level start = doc.put level start := by
  induction doc generalizing level start with
  | append first second ihFirst ihSecond =>
    change (append first.bare second.bare).put level start = _
    simp only [put, ihFirst, ihSecond]
  | nest doc ih => exact ih (level + 1) start
  | node _ doc ih => exact ih level start
  | _ => rfl

theorem bare_append (first second : Doc) : (first ++ second).bare = first.bare ++ second.bare := rfl

theorem bare_concat (docs : List Doc) : (concat docs).bare = concat (docs.map bare) := by
  induction docs with
  | nil => rfl
  | cons doc docs ih => exact congrArg (doc.bare ++ ·) ih

theorem bare_commaSeparated (docs : List Doc) :
    (commaSeparated docs).bare = commaSeparated (docs.map bare) := by
  induction docs with
  | nil => rfl
  | cons doc docs ih =>
    cases docs with
    | nil => rfl
    | cons next docs => exact congrArg (doc.bare ++ text ", " ++ ·) ih

theorem bare_braced (docs : List Doc) : (braced docs).bare = braced (docs.map bare) := by
  cases docs with
  | nil => rfl
  | cons doc docs => exact congrArg (fun inside => text "\x7b" ++ line ++ nest inside ++ text "\x7d") (bare_concat _)

end Doc

def Part.bare (part : Part) : Part := (part.1, fun role => (part.2 role).bare)

section
open Doc (bare_append bare_concat bare_commaSeparated bare_braced)

attribute [local simp] bare_append bare_concat bare_commaSeparated bare_braced Doc.bare Shape.map Part.list
  Part.expression Part.isPresent Part.bare arguments parameters functionDoc Function.comp_def

theorem bare_ite (c : Prop) [Decidable c] (a b : Doc) :
    (if c then a else b).bare = if c then a.bare else b.bare := apply_ite _ _ _ _

attribute [local simp] bare_ite

@[local simp] theorem bare_expressionAfter (part : Part) (before : String) :
    (part.expressionAfter before).bare = part.bare.expressionAfter before := by
  cases h : part.1.isPresent <;> simp [Part.expressionAfter, h]

theorem bare_expressionDoc (info : Info) (parts : Shape Part) :
    (expressionDoc info parts).bare = expressionDoc info (parts.map Part.bare) := by
  cases parts with
  | bare kind =>
    cases kind with
    | token kind => cases kind <;> rfl
    | _ => rfl
  | binary | conditional | property | parenthesized => simp [expressionDoc]
  | unary isTrailing operator => cases isTrailing <;> cases operator <;> simp [expressionDoc]
  | call flag | access flag => cases flag <;> simp [expressionDoc]
  | collection isObject elements => cases isObject <;> cases elements <;> simp [expressionDoc]
  | function form => cases form <;> simp [expressionDoc, arrowDoc]
  | _ => rfl

theorem bare_blockDoc (parts : Shape Part) : (blockDoc parts).bare = blockDoc (parts.map Part.bare) := by
  cases parts with
  | block => simp [blockDoc]
  | _ => rfl

theorem bare_ifDoc (parts : Shape Part) : (ifDoc .empty parts).bare = ifDoc .empty (parts.map Part.bare) := by
  cases parts with
  | branch _ _ elseBranch => cases h : elseBranch.1.isPresent <;> simp [ifDoc, h]
  | _ => rfl

theorem bare_statementDoc (info : Info) (parts : Shape Part) :
    (statementDoc .empty info parts).bare = statementDoc .empty info (parts.map Part.bare) := by
  rw [statementDoc, statementDoc, bare_append]
  congr 1
  cases parts with
  | bare kind => cases kind <;> rfl
  | block statements => exact bare_blockDoc (.block statements)
  | branch condition whenTrue whenFalse => exact bare_ifDoc (.branch condition whenTrue whenFalse)
  | evaluate | exit => simp [statementInside]
  | «variables» isStatement => cases isStatement <;> simp [statementInside]
  | function form => cases form <;> simp [statementInside]
  | loop form => cases form <;> simp [statementInside, loopDoc]
  | _ => rfl

theorem bare_nodeDoc (arena : Arena) (nodes : NodeDocs) (info : Info) (parts : Shape Part) (role : Role) :
    (nodeDoc arena .empty nodes info parts role).bare =
      nodeDoc .empty .empty nodes info (parts.map Part.bare) role := by
  have hexpression : (nodeDoc.expression arena .empty nodes info parts).bare =
      nodeDoc.expression .empty .empty nodes info (parts.map Part.bare) := bare_expressionDoc info parts
  have hstatement : (nodeDoc.statement .empty nodes info parts).bare =
      nodeDoc.statement .empty nodes info (parts.map Part.bare) := bare_statementDoc info parts
  have hembedded : (nodeDoc.embedded .empty nodes info parts).bare =
      nodeDoc.embedded .empty nodes info (parts.map Part.bare) := by
    change Doc.bare (if _ then _ else _) = if _ then _ else _
    rw [bare_ite, Shape.kind_map]
    congr 1
    · exact congrArg (Doc.text " " ++ ·) (bare_blockDoc parts)
    · exact congrArg (Doc.line ++ .nest ·) hstatement
  have hkind : parts.kind.isStatement = true ↔ (parts.map Part.bare).kind.isStatement = true := by
    rw [Shape.kind_map]
  cases role with
  | expression => exact hexpression
  | statement => exact hstatement
  | block => exact bare_blockDoc parts
  | embedded => exact hembedded
  | elseBranch =>
    change Doc.bare (if _ then _ else _) = if _ then _ else _
    rw [bare_ite, Shape.kind_map]
    congr 1
    exact congrArg (Doc.text " " ++ ·) (bare_ifDoc parts)
  | declarations =>
    cases parts <;> simp [nodeDoc, declarationsDoc]
  | declaration | parameter => cases parts <;> simp [nodeDoc, bindingDoc]
  | whole =>
    cases parts with
    | file => simp [nodeDoc]
    | _ =>
      exact (bare_ite _ _ _).trans (if_congr hkind hstatement hexpression)

end

def plain : NodeDocs := Node.fold absentDoc (nodeDoc .empty .empty fun _ _ => .empty)

section
variable {info : Info} {name left right body value condition update : Node} {nodes : List Node}

theorem plain_mk (info : Info) (shape : Shape Node) : plain (.mk info shape) =
    nodeDoc .empty .empty (fun _ _ => .empty) info (shape.map fun part => (part, plain part)) := by
  rw [plain, Node.fold_mk]

theorem bare_docs (arena : Arena) (node : Node) (role : Role) :
    (docs arena .empty node role).bare = plain node role := by
  change (docsWith arena .empty (fun _ _ => .empty) node role).bare = _
  induction node generalizing role with
  | absent => cases role <;> rfl
  | mk info shape ih =>
    rw [docsWith, Node.fold_mk, plain_mk]
    refine (bare_nodeDoc arena _ info _ role).trans ?_
    rw [Shape.map_map]
    exact congrArg (nodeDoc .empty .empty _ info · role)
      (Shape.map_congr fun part hp => Prod.ext rfl (funext (ih part hp)))

theorem print_empty (arena : Arena) (node : Node) :
    print arena .empty node = (plain node .whole).render := by
  rw [print, Doc.render_eq, Doc.render_eq, ← bare_docs arena, Doc.put_bare]

theorem list_eq (nodes : List Node) (role : Role) :
    Part.list (nodes.map fun part => (part, plain part)) role =
      .commaSeparated (nodes.map (plain · role)) := by
  simp [Part.list, Function.comp_def]

theorem plain_array : plain (.mk info (.collection false nodes)) .expression =
    .text "[" ++ .commaSeparated (nodes.map (plain · .expression)) ++ .text "]" := by
  rw [← list_eq, plain_mk]
  rfl

theorem plain_object : plain (.mk info (.collection true nodes)) .expression =
    if nodes.isEmpty then .text "\x7b\x7d"
    else .text "\x7b " ++ .commaSeparated (nodes.map (plain · .expression)) ++ .text " \x7d" := by
  rw [← list_eq, plain_mk]
  cases nodes <;> rfl

theorem arguments_eq (nodes : List Node) :
    arguments (nodes.map fun part => (part, plain part)) =
      .text "(" ++ .commaSeparated (nodes.map (plain · .expression)) ++ .text ")" := by
  rw [← list_eq]
  rfl

theorem parameters_eq (nodes : List Node) :
    parameters (nodes.map fun part => (part, plain part)) =
      .text "(" ++ .commaSeparated (nodes.map (plain · .parameter)) ++ .text ")" := by
  rw [← list_eq]
  rfl

theorem plain_block : plain (.mk info (.block nodes)) .block =
    .braced (nodes.map (plain · .statement)) := by
  have hmap : (nodes.map fun part => (part, plain part)).map (fun part : Part => part.2 .statement) =
      nodes.map (plain · .statement) := by simp [Function.comp_def]
  rw [← hmap, plain_mk]
  rfl

theorem plain_file {file : String} : plain (.mk info (.file file nodes)) .whole =
    .concat (nodes.map (plain · .statement)) := by
  have hmap : (nodes.map fun part => (part, plain part)).map (fun part : Part => part.2 .statement) =
      nodes.map (plain · .statement) := by simp [Function.comp_def]
  rw [← hmap, plain_mk]
  rfl

end

def isDigits : Node → Bool
  | .mk _ (.literal false _ raw _) => raw.toList.all Char.isDigit
  | _ => false

def PointsApart (root : Node) : Prop :=
  ∀ info object key, Node.Within (.mk info (.access false object key)) root → isDigits object = false

theorem PointsApart.within {node root : Node} (h : PointsApart root) (hw : node.Within root) :
    PointsApart node := fun info object key hin => h info object key (hin.trans hw)

theorem PointsApart.part {info : Info} {shape : Shape Node} (h : PointsApart (.mk info shape)) :
    ∀ part ∈ shape.parts, PointsApart part := fun _ hp => h.within (.part hp .self)

theorem pointsApart_absent : PointsApart .absent := nofun

theorem pointsApart_mk {info : Info} {shape : Shape Node} : PointsApart (.mk info shape) ↔
    (∀ part ∈ shape.parts, PointsApart part) ∧
      ∀ object key, shape = .access false object key → isDigits object = false := by
  refine ⟨fun h => ⟨h.part, fun object key heq => h info object key (heq ▸ .self)⟩, ?_⟩
  rintro ⟨hparts, hhere⟩ other object key hw
  cases hw with
  | self => exact hhere object key rfl
  | part hp hw => exact hparts _ hp other object key hw

def pointsApart : Node → Bool :=
  Node.fold true fun _ shape => shape.parts.all (·.2) && match shape with
    | .access false object _ => !isDigits object.1
    | _ => true

theorem pointsApart_iff (node : Node) : pointsApart node ↔ PointsApart node := by
  induction node using Node.induction with
  | absent => exact iff_of_true rfl pointsApart_absent
  | mk info shape ih =>
    rw [pointsApart_mk, pointsApart, Node.fold_mk, Bool.and_eq_true_iff, Shape.parts_map]
    refine and_congr ?_ ?_
    · rw [List.all_map, List.all_eq_true]
      exact forall₂_congr fun part hp => ih part hp
    · cases shape with
      | access isComputed object key => cases isComputed <;> simp [Shape.map]
      | _ => simp [Shape.map]

instance (node : Node) : Decidable (PointsApart node) := decidable_of_iff _ (pointsApart_iff node)

variable {limited : Bool} {level : Level} {depth : Nat} {node : Node} {word : Word}

def endsOperand (kind : Kind) : Bool :=
  kind == .identifier || kind.isReservedWord || kind == .number || kind == .string || kind.isWhole

theorem apart_of_endsOperand (h : word.Genuine) (hends : endsOperand word.kind) {c : Char}
    (hc : Text.isNamePart c = false)
    (hpoint : c = '.' → word.kind = .number → word.text.toList.all Char.isDigit = false)
    (cs : List Char) : word.Apart (c :: cs) := by
  have hstops : Token.Stops Text.isNamePart (c :: cs) := by
    intro d hd
    cases hd
    exact hc
  cases h with
  | name => rwa [Word.apart_iff_of_name (by exact Token.ofWord?_getD _)]
  | number =>
    refine ⟨hstops, fun hdigits hhead => ?_⟩
    cases hhead
    exact absurd hdigits (Bool.eq_false_iff.mp (hpoint rfl rfl))
  | string => trivial
  | @mark kind hkind =>
    refine Word.apart_of_isWhole ?_ _
    have hmark : ∀ kind ∈ Kind.punctuation, endsOperand kind → kind.isWhole := by decide
    exact hmark kind hkind hends

/-- The node ends with a word that an operand can end with. If this is a number, the node is this
number or leaves the arguments of a `new` out. -/
def EndsOperand (node : Node) (ws : List Spelling) : Prop :=
  ∀ last ∈ ws.getLast?, endsOperand last.kind ∧
    (last.kind = .number → Grammar.isOpenNew node ∨ ∃ info text value,
      node = .mk info (.literal false text last.word.text value))

theorem EndsOperand.ofMark {front : List Spelling} {kind : Kind} (hkind : kind.isWhole) :
    EndsOperand node (front ++ [sign kind]) := by
  intro last hlast
  rw [List.getLast?_append] at hlast
  obtain rfl : sign kind = last := Option.some.inj hlast
  refine ⟨by simp [endsOperand, hkind], ?_⟩
  rintro hnumber
  obtain rfl : kind = .number := hnumber
  cases hkind

theorem endsOperand_leaf {kinds : Kind → Bool} (h : Leaf kinds node)
    (hkinds : ∀ kind, kinds kind → endsOperand kind) : EndsOperand node (words node) := by
  intro last hlast
  cases h with
  | @name _ _ _ text hk hgenuine =>
    cases hlast
    refine ⟨hkinds _ hk, fun hnumber => ?_⟩
    have hnamed := Token.ofWord?_getD text
    rw [show (Kind.ofWord? text).getD .identifier = .number from hnumber] at hnamed
    exact absurd hnamed (by decide)
  | @literal _ _ _ isString _ _ hk _ =>
    cases hlast
    refine ⟨hkinds _ hk, fun hnumber => ?_⟩
    cases isString with
    | true => cases hnumber
    | false => exact .inr ⟨_, _, _, rfl⟩

/-- Levels of what stands before a point, an argument list or a trailing operator. -/
def isChain : Level → Bool
  | .member .. | .head | .new => true
  | _ => false

theorem endsOperand_phrase (h : Phrase limited level depth node) (hl : isChain level) :
    EndsOperand node (words node) := by
  induction h with
  | leaf hleaf =>
    refine endsOperand_leaf hleaf fun kind => ?_
    cases kind <;> decide
  | @word _ _ _ _ kind hword =>
    have hvalue : ∀ kind, Grammar.isValueWord kind → endsOperand kind ∧ kind ≠ .number := by
      intro kind
      cases kind <;> decide
    intro last hlast
    cases hlast
    exact ⟨(hvalue kind hword).1, fun hnumber => absurd hnumber (hvalue kind hword).2⟩
  | parenthesized =>
    rw [Grammar.words_parenthesized]
    exact .ofMark (by decide)
  | array =>
    rw [Grammar.words_array]
    exact .ofMark (by decide)
  | object =>
    rw [Grammar.words_object]
    exact .ofMark (by decide)
  | functionExpression _ _ hbody =>
    rw [Grammar.words_function (by decide)]
    cases hbody with
    | block =>
      rw [Grammar.words_block]
      unfold between
      rw [← List.append_assoc _ _ [sign .closeBrace]]
      exact .ofMark (by decide)
  | ofNew _ ih | ofHead _ ih => exact ih rfl
  | newListed =>
    rw [Grammar.words_newListed, between, ← List.append_assoc]
    exact .ofMark (by decide)
  | newBare h ih =>
    intro last hlast
    rw [Grammar.words_newBare, List.getLast?_cons] at hlast
    obtain ⟨word, hword⟩ : ∃ word, (words _).getLast? = some word :=
      Option.isSome_iff_exists.mp (List.getLast?_isSome.mpr h.words_ne_nil)
    rw [hword] at hlast
    cases hlast
    exact ⟨(ih rfl _ hword).1, fun _ => .inl rfl⟩
  | access _ _ _ hkey =>
    have hname : ∀ kind, Grammar.isMemberName kind → endsOperand kind ∧ kind ≠ .number := by
      intro kind
      cases kind <;> decide
    intro last hlast
    obtain ⟨word, hwords, hkind, -⟩ := hkey.words_eq
    rw [Grammar.words_access, hwords] at hlast
    have hlast : some (⟨word, false⟩ : Spelling) = some last := by simpa using hlast
    cases hlast
    exact ⟨(hname _ hkind).1, fun hnumber => absurd hnumber (hname _ hkind).2⟩
  | element =>
    rw [Grammar.words_element, between, ← List.append_assoc]
    exact .ofMark (by decide)
  | call =>
    rw [Grammar.words_call, between, ← List.append_assoc]
    exact .ofMark (by decide)
  | _ => cases hl

/-- The characters that make another mark of the mark. -/
def followers (kind : Kind) : List Char :=
  Kind.punctuation.filterMap fun longer =>
    if kind.spelling.toList.isPrefixOf longer.spelling.toList then
      longer.spelling.toList[kind.spelling.toList.length]?
    else none

theorem fuses_eq_false {kind : Kind} {c : Char} (hfollowers : c ∉ followers kind)
    (hdot : kind = .dot → c.isDigit = false) (hdivide : kind ≠ .divide) : kind.fuses c = false := by
  refine Bool.eq_false_iff.mpr fun hfuses => ?_
  simp only [Kind.fuses, Bool.or_eq_true, List.any_eq_true, Bool.and_eq_true, beq_iff_eq, hdivide,
    false_and, or_false] at hfuses
  obtain ⟨longer, hmem, hleads⟩ | ⟨hkind, hdigit⟩ := hfuses
  · have hleads := List.isPrefixOf_iff_prefix.mp hleads
    refine hfollowers (List.mem_filterMap.mpr ⟨longer, hmem, ?_⟩)
    rw [if_pos (List.isPrefixOf_iff_prefix.mpr ((List.prefix_append _ _).trans hleads))]
    obtain ⟨more, hmore⟩ := hleads
    rw [← hmore]
    simp
  · rw [hdot hkind] at hdigit
    cases hdigit

theorem first_of_word {c : Char} (h : word.Genuine) (hkind : word.kind ∉ Kind.punctuation)
    (hc : word.text.toList.head? = some c) :
    c ∉ ['=', '+', '-'] ∧ (word.kind ≠ .number → c.isDigit = false) := by
  cases h with
  | @name d _ hd =>
    obtain rfl : d = c := by simpa using hc
    refine ⟨?_, fun _ => Token.not_isDigit_of_isNameStart hd⟩
    simp only [List.mem_cons, List.not_mem_nil, or_false]
    rintro (rfl | rfl | rfl) <;> exact absurd hd (by decide)
  | @number text _ hstarts =>
    refine ⟨?_, fun hnot => absurd rfl hnot⟩
    cases text with
    | nil => cases hstarts
    | cons d ds =>
      obtain rfl : d = c := by simpa using hc
      obtain hdigit | ⟨rfl, -⟩ := Token.startsNumber_iff.mp hstarts
      · simp only [List.mem_cons, List.not_mem_nil, or_false]
        rintro (rfl | rfl | rfl) <;> exact absurd hdigit (by decide)
      · decide
  | @string quote _ hquote =>
    obtain rfl : quote = c := by simpa using hc
    obtain rfl | rfl := hquote
    · exact ⟨by decide, fun _ => by decide⟩
    · exact ⟨by decide, fun _ => by decide⟩
  | mark hmem => exact absurd hmem hkind

theorem apart_leading {operator : Kind} (hoperator : Grammar.isLeadingOperator operator)
    (hmark : operator.isReservedWord = false) (h : word.Genuine)
    (hstarts : Grammar.startsExpression word.kind)
    (hfuse : operator = .plus ∨ operator = .minus →
      word.kind.spelling.toList.head? ≠ operator.spelling.toList.head?)
    {c : Char} (hc : word.text.toList.head? = some c) (cs : List Char) :
    (sign operator).word.Apart (c :: cs) := by
  have hmem : operator ∈ Kind.punctuation ∧ operator ≠ .dot ∧ operator ≠ .divide ∧
      (followers operator).all ['=', '+', '-'].contains = true ∧
      ∀ kind ∈ Kind.punctuation, Grammar.startsExpression kind →
        (operator = .plus ∨ operator = .minus →
          kind.spelling.toList.head? ≠ operator.spelling.toList.head?) →
        kind.spelling.toList.head?.all (!(followers operator).contains ·) = true := by
    cases operator <;>
      first | exact absurd hoperator (by decide) | exact absurd hmark (by decide) | decide
  obtain ⟨hpunctuation, hdot, hdivide, hfollowers, hmarks⟩ := hmem
  rw [Word.apart_iff_of_mark (by exact hpunctuation)]
  intro d hd
  cases hd
  refine fuses_eq_false ?_ (fun hk => absurd hk hdot) hdivide
  by_cases hkind : word.kind ∈ Kind.punctuation
  · cases h with
    | @mark kind _ =>
      have hmark := hmarks kind hkind hstarts hfuse
      rw [hc] at hmark
      have hnot : c ∉ followers operator := by simpa using hmark
      exact hnot
    | @name d ds =>
      have hnot : ∀ kind ∈ Kind.punctuation, ¬ (kind = .identifier ∨ kind.isReservedWord) := by decide
      exact absurd (Token.ofWord?_getD _) (hnot _ hkind)
    | number => exact absurd (show Kind.number ∈ Kind.punctuation from hkind) (by decide)
    | string => exact absurd (show Kind.string ∈ Kind.punctuation from hkind) (by decide)
  · exact fun hmem => (first_of_word h hkind hc).1
      (List.contains_iff_mem.mp (List.all_eq_true.mp hfollowers c hmem))

theorem startsLine_words (h : Phrase limited level depth node) : StartsLine (words node) := by
  have hleft : ∀ {ws others : List Spelling}, ws ≠ [] → StartsLine ws → StartsLine (ws ++ others) := by
    intro ws others hne hline
    unfold StartsLine
    rwa [Grammar.head?_append_left hne]
  have hleaf : ∀ {kinds : Kind → Bool} {leaf : Node}, Leaf kinds leaf →
      ∀ others, StartsLine (words leaf ++ others) := by
    intro kinds leaf hleaf others
    obtain ⟨word, hwords, -⟩ := hleaf.words_eq
    rw [hwords]
    simp [StartsLine]
  induction h with
  | leaf h => simpa using hleaf h []
  | word => simp [Grammar.words_mk, Shape.map, Grammar.wordsNode, StartsLine, sign]
  | property hname | shorthand hname =>
    rw [Grammar.words_property]
    exact hleaf hname _
  | parameter hname =>
    rw [Grammar.words_parameter]
    exact hleaf hname _
  | «variable» hname =>
    rw [Grammar.words_variable]
    exact hleaf hname _
  | jump _ hkind => rcases hkind with rfl | rfl | rfl <;> exact fun _ h => by cases h; rfl
  | ofNew _ ih | ofHead _ ih | ofMember _ ih | ofOperand _ ih | ofUnary _ ih | ofBinary _ _ ih
  | ofAssignment _ ih | ofBlock _ _ ih => exact ih
  | access h _ _ _ ih =>
    rw [Grammar.words_access]
    exact hleft h.words_ne_nil ih
  | element h _ _ _ ih =>
    rw [Grammar.words_element]
    exact hleft h.words_ne_nil ih
  | call h _ _ _ ih =>
    rw [Grammar.words_call]
    exact hleft h.words_ne_nil ih
  | trailing _ h ih =>
    rw [Grammar.words_trailing]
    exact hleft h.words_ne_nil ih
  | operator _ _ h _ _ ih | assign _ h _ _ _ ih | comma h _ _ ih =>
    rw [Grammar.words_binary]
    exact hleft h.words_ne_nil ih
  | conditional _ h _ _ ih =>
    rw [Grammar.words_conditional, List.append_assoc]
    exact hleft h.words_ne_nil ih
  | variableStatement _ h ih =>
    rw [Grammar.words_variableStatement]
    exact hleft h.words_ne_nil ih
  | evaluate _ h _ _ ih =>
    rw [Grammar.words_evaluate]
    exact hleft h.words_ne_nil ih
  | _ => exact fun _ h => by cases h; rfl

def WritesExpression (node : Node) : Prop :=
  Writes .word (plain node .expression) (joinFirst (words node))

section
variable {id pos fin : Nat} {info : Info} {left right object key name value body condition : Node}
  {nodes : List Node} {operator : Kind}

theorem joinFirst_append {ws : List Spelling} (h : ws ≠ []) (others : List Spelling) :
    joinFirst (ws ++ others) = joinFirst ws ++ others := by
  obtain ⟨first, rest, rfl⟩ := List.exists_cons_of_ne_nil h
  rfl

theorem getLast?_joinFirst {ws : List Spelling} {last : Spelling} (h : last ∈ (joinFirst ws).getLast?) :
    ∃ other ∈ ws.getLast?, other.word = last.word := by
  cases ws with
  | nil => cases h
  | cons first rest =>
    cases rest with
    | nil =>
      cases h
      exact ⟨first, rfl, rfl⟩
    | cons second rest => exact ⟨last, h, rfl⟩

theorem WritesExpression.words (h : WritesExpression node) :
    Writes .word (plain node .expression) (words node) := Writes.unjoin h

theorem writes_openParen {joined : Bool} :
    Writes .free (.text "(") [⟨(sign .openParen).word, joined⟩] :=
  writes_text [some .openParen] rfl rfl (by decide)

theorem writes_closeParen {ending : Ending} : Writes ending (.text ")") [sign .closeParen] :=
  writes_text [some .closeParen] rfl rfl (by decide)

theorem opens_closeParen : Opens (.text ")") := opens_text (by decide)

theorem writes_semicolon {ending : Ending} : Writes ending (.text ";") [sign .semicolon] :=
  writes_text [some .semicolon] rfl rfl (by decide)

theorem opens_semicolon : Opens (.text ";") := opens_text (by decide)

theorem writesExpression_leaf {kinds : Kind → Bool} (h : Leaf kinds node) :
    WritesExpression node := by
  unfold WritesExpression
  cases h with
  | @name _ _ _ text hk hgenuine =>
    rw [plain_mk]
    exact @writes_leaf ⟨_, text, text⟩ _ _ hgenuine
  | @literal _ _ _ isString text raw hk hgenuine =>
    rw [plain_mk]
    exact @writes_leaf ⟨_, text, raw⟩ _ _ hgenuine

theorem writesExpression_word (h : Grammar.isValueWord operator) :
    WritesExpression (.mk info (.bare (.token operator))) := by
  have hsign : isSign operator := by
    revert h
    cases operator <;> decide
  have hleaf : Writes .word (.leaf info.id operator.spelling) [(sign operator).join] :=
    @writes_leaf (sign operator).word _ _ (genuine_sign hsign)
  unfold WritesExpression
  rw [plain_mk]
  cases operator <;> first | exact absurd h (by decide) | exact hleaf

theorem writesExpression_parenthesized (h : WritesExpression value) :
    WritesExpression (.mk info (.parenthesized value)) := by
  unfold WritesExpression
  rw [plain_mk, Grammar.words_parenthesized]
  exact (writes_openParen.thenAny h.words).thenOpen opens_closeParen writes_closeParen

theorem writesExpression_array (h : ∀ node ∈ nodes, WritesExpression node) :
    WritesExpression (.mk info (.collection false nodes)) := by
  unfold WritesExpression
  rw [plain_array, Grammar.words_array]
  exact writes_between (writes_text [some .openBracket] rfl rfl (by decide))
    (writes_text [some .closeBracket] rfl rfl (by decide)) (opens_text (by decide))
    fun node hnode => (h node hnode).words

theorem writesExpression_object (h : ∀ node ∈ nodes, WritesExpression node) :
    WritesExpression (.mk info (.collection true nodes)) := by
  unfold WritesExpression
  rw [plain_object, Grammar.words_object]
  split
  · rename_i hnone
    obtain rfl : nodes = [] := List.isEmpty_iff.mp hnone
    exact writes_text [some .openBrace, some .closeBrace] rfl rfl (by decide)
  · exact writes_between (writes_text [some .openBrace, none] rfl rfl (by decide))
      (writes_text [none, some .closeBrace] rfl rfl (by decide)) (opens_text (by decide))
      fun node hnode => (h node hnode).words

theorem Writes.thenAfter {doc : Doc} {ws : List Spelling} {before : String} {kind : Kind}
    (hdoc : Writes .word doc ws) (hopens : Opens (.text before))
    (hbefore : Writes .free (.text before) [sign kind])
    (h : value.isPresent → WritesExpression value) :
    Writes .word (doc ++ Part.expressionAfter (value, plain value) before)
      (ws ++ Grammar.announced kind (value, words value)) := by
  cases value with
  | absent =>
    rw [Grammar.announced, if_neg (by rintro ⟨⟩), List.append_nil]
    exact hdoc.thenEmpty
  | mk info shape =>
    exact hdoc.thenOpen (hopens.append _) (hbefore.thenAny (h rfl).words)

theorem writesExpression_property {kinds : Kind → Bool} (hname : Leaf kinds name)
    (h : value.isPresent → WritesExpression value) :
    WritesExpression (.mk info (.property name value)) := by
  have hwords : words name ≠ [] := by
    obtain ⟨word, hwords, -⟩ := hname.words_eq
    simp [hwords]
  unfold WritesExpression
  rw [plain_mk, Grammar.words_property, joinFirst_append hwords]
  exact (writesExpression_leaf hname).thenAfter (opens_text (by decide))
    (writes_text [some .colon, none] rfl rfl (by decide)) h

theorem writes_binding {kinds : Kind → Bool} (hname : Leaf kinds name)
    (h : value.isPresent → WritesExpression value) :
    Writes .word (bindingDoc (name, plain name) (value, plain value))
      (words name ++ Grammar.announced .assign (value, words value)) :=
  (writesExpression_leaf hname).words.thenAfter (opens_text (by decide))
    (writes_text [none, some .assign, none] rfl rfl (by decide)) h

theorem apart_chain (h : Phrase limited level depth node) (hl : isChain level)
    (hwrites : WritesExpression node) {c : Char} (hc : Text.isNamePart c = false)
    (hpoint : c = '.' → Grammar.isOpenNew node = false ∧ isDigits node = false) :
    ∀ last ∈ (joinFirst (words node)).getLast?, ∀ cs, last.word.Apart (c :: cs) := by
  intro last hlast cs
  have hgenuine := hwrites.genuine last (List.mem_of_getLast? hlast)
  obtain ⟨other, hother, hword⟩ := getLast?_joinFirst hlast
  obtain ⟨hends, hnumber⟩ := endsOperand_phrase h hl other hother
  rw [← hword] at hgenuine ⊢
  refine apart_of_endsOperand hgenuine hends hc (fun hdot hkind => ?_) cs
  obtain ⟨hnew, hdigits⟩ := hpoint hdot
  obtain hopen | ⟨info, text, value, rfl⟩ := hnumber hkind
  · rw [hnew] at hopen
    cases hopen
  · exact hdigits

theorem writesExpression_access (h : Phrase limited level depth object) (hl : isChain level)
    (hobject : WritesExpression object) (hnew : Grammar.isOpenNew object = false)
    (hdigits : isDigits object = false) (hkey : Leaf Grammar.isMemberName key) :
    WritesExpression (.mk info (.access false object key)) := by
  unfold WritesExpression
  rw [plain_mk, Grammar.words_access, joinFirst_append h.words_ne_nil]
  have hdot : Writes .word (.text ".") [sign .dot] := writes_sign (genuine_sign (by decide)) rfl
  have hboth := Writes.thenWord hobject hdot fun last hlast c hc =>
    apart_chain h hl hobject (by cases hc; decide) (fun _ => ⟨hnew, hdigits⟩) last hlast
  obtain ⟨word, hwords, hkind, hgenuine⟩ := hkey.words_eq
  have hname := (writesExpression_leaf hkey).words
  rw [hwords] at hname ⊢
  have hall := hboth.thenWord hname fun last hlast c hc cs => ?_
  · rw [List.append_assoc] at hall
    exact hall
  · -- A name does not begin with a digit.
    obtain rfl : sign .dot = last := by simpa using hlast
    have hmark : word.kind ∉ Kind.punctuation ∧ word.kind ≠ .number := by
      revert hkind
      generalize word.kind = kind
      cases kind <;> decide
    rw [Word.apart_iff_of_mark (by decide)]
    intro d hd
    cases hd
    refine fuses_eq_false ?_ (fun _ => (first_of_word hgenuine hmark.1 hc).2 hmark.2) (by decide)
    rw [show followers (sign .dot).word.kind = [] by decide]
    exact List.not_mem_nil

theorem writesExpression_element (h : Phrase limited level depth object)
    (hobject : WritesExpression object) (hkey : WritesExpression key) :
    WritesExpression (.mk info (.access true object key)) := by
  unfold WritesExpression
  rw [plain_mk, Grammar.words_element, joinFirst_append h.words_ne_nil]
  have hopen : Writes .free (.text "[") [sign .openBracket] :=
    writes_text [some .openBracket] rfl rfl (by decide)
  have hclose : Writes .word (.text "]") [sign .closeBracket] :=
    writes_text [some .closeBracket] rfl rfl (by decide)
  have hall := ((hobject.thenOpen (opens_text (by decide)) hopen).thenAny hkey.words).thenOpen
    (opens_text (by decide)) hclose
  simp only [List.append_assoc, List.cons_append, List.nil_append] at hall
  exact hall

theorem writes_arguments {ending : Ending} (h : ∀ node ∈ nodes, WritesExpression node) :
    Writes ending (arguments (nodes.map fun part => (part, plain part)))
      (between .openParen .closeParen (commas (nodes.map words))) := by
  rw [arguments_eq]
  exact writes_between writes_openParen writes_closeParen opens_closeParen fun node hnode =>
    (h node hnode).words

theorem opens_arguments (parts : List Part) : Opens (arguments parts) :=
  ((opens_text (by decide)).append _).append _

theorem writesExpression_call (h : Phrase limited level depth left)
    (hleft : WritesExpression left) (hnodes : ∀ node ∈ nodes, WritesExpression node) :
    WritesExpression (.mk info (.call false left true nodes)) := by
  unfold WritesExpression
  rw [plain_mk, Grammar.words_call, joinFirst_append h.words_ne_nil]
  exact hleft.thenOpen (opens_arguments _) (writes_arguments hnodes)

theorem writes_new {joined : Bool} :
    Writes .free (.text "new ") [⟨(sign .newWord).word, joined⟩] :=
  writes_text [some .newWord, none] rfl rfl (by decide)

theorem writesExpression_newListed (hleft : WritesExpression left)
    (hnodes : ∀ node ∈ nodes, WritesExpression node) :
    WritesExpression (.mk info (.call true left true nodes)) := by
  unfold WritesExpression
  rw [plain_mk, Grammar.words_newListed]
  exact (writes_new.thenAny hleft.words).thenOpen (opens_arguments _) (writes_arguments hnodes)

theorem writesExpression_newBare (hleft : WritesExpression left) :
    WritesExpression (.mk info (.call true left false nodes)) := by
  unfold WritesExpression
  rw [plain_mk, Grammar.words_newBare]
  exact (writes_new.thenAny hleft.words).thenEmpty

theorem writesExpression_trailing (h : Phrase limited level depth value) (hl : isChain level)
    (hoperator : operator = .increment ∨ operator = .decrement) (hvalue : WritesExpression value) :
    WritesExpression (.mk info (.unary true (some operator) value)) := by
  unfold WritesExpression
  rw [plain_mk, Grammar.words_trailing, joinFirst_append h.words_ne_nil]
  have hsign : Writes .word (.text operator.spelling) [(sign operator).join] :=
    writes_sign (genuine_sign (by obtain rfl | rfl := hoperator <;> decide)) rfl
  refine hvalue.thenWord hsign fun last hlast c hc => ?_
  have hplain : Text.isNamePart c = false ∧ c ≠ '.' := by
    obtain rfl | rfl := hoperator <;> cases hc <;> decide
  exact apart_chain h hl hvalue hplain.1 (fun hdot => absurd hdot hplain.2) last hlast

theorem writesExpression_leading (hoperator : Grammar.isLeadingOperator operator)
    (h : Phrase limited .unary depth value) (hvalue : WritesExpression value) :
    WritesExpression (.mk info (.unary false (some operator) value)) := by
  have hsign : isSign operator := by
    revert hoperator
    cases operator <;> decide
  have htext : Writes .word (.text operator.spelling) [(sign operator).join] :=
    writes_sign (genuine_sign hsign) rfl
  unfold WritesExpression
  rw [plain_mk, Grammar.words_leading]
  change Writes .word (.text operator.spelling ++ (if operator.isReservedWord ||
    wouldFuse operator value then .text " " else .empty) ++ plain value .expression)
    ([(sign operator).join] ++ words value)
  split
  · have hgap : Writes .free (.text " ") [] := writes_text [none] rfl rfl (by decide)
    have hboth := htext.thenOpen (opens_text (by decide)) hgap
    exact hboth.thenAny hvalue.words
  · rename_i hgap
    obtain ⟨hreserved, hfuse⟩ := Bool.or_eq_false_iff.mp (Bool.eq_false_iff.mpr hgap)
    obtain ⟨first, rest, hwords⟩ := List.exists_cons_of_ne_nil h.words_ne_nil
    have hwrites := hvalue.words
    have hstarts : Grammar.startsExpression first.kind := by
      have := h.begins []
      rw [hwords] at this
      exact this
    have hgenuine := hwrites.genuine first (by simp [hwords])
    rw [hwords] at hwrites ⊢
    refine htext.thenEmpty.thenWord hwrites fun last hlast c hc cs => ?_
    obtain rfl : (sign operator).join = last := by simpa using hlast
    refine apart_leading hoperator hreserved hgenuine hstarts (fun hplus hsame => ?_) hc cs
    cases h with
    | ofOperand h =>
      -- Nothing but a leading operator begins with a sign.
      have hnot : Grammar.startsOperand first.word.kind := by
        have := h.begins []
        rw [hwords] at this
        exact this
      revert hnot hsame
      generalize first.word.kind = kind
      obtain rfl | rfl := hplus <;> cases kind <;> decide
    | @leading _ _ _ _ inner _ hinner =>
      rw [Grammar.words_leading] at hwords
      cases hwords
      have hplus : (operator == .plus || operator == .minus) = true := by simpa using hplus
      simp only [wouldFuse, hplus, Bool.true_and, beq_eq_false_iff_ne] at hfuse
      exact hfuse hsame

theorem writesExpression_binary (h : Phrase limited level depth left)
    (hsign : isSign operator) (hcomma : operator ≠ .comma) (hleft : WritesExpression left)
    (hright : WritesExpression right) :
    WritesExpression (.mk info (.binary left (some operator) right)) := by
  have hblank : Writes .free (.text " ") [] := writes_text [none] rfl rfl (by decide)
  have htext : Writes .word (.text operator.spelling) [sign operator] :=
    writes_sign (genuine_sign hsign) rfl
  have hmiddle : Writes .free (.text " " ++ .text operator.spelling ++ .text " ") [sign operator] :=
    (hblank.thenAny htext).thenOpen (opens_text (by decide)) hblank
  unfold WritesExpression
  rw [plain_mk, Grammar.words_binary, joinFirst_append h.words_ne_nil]
  have hne : (some operator == some Kind.comma) = false := by simpa using hcomma
  change Writes .word (plain left .expression ++ (if some operator == some Kind.comma then .text ", "
    else .text " " ++ .text operator.spelling ++ .text " ") ++ plain right .expression) _
  rw [hne]
  have hall := (hleft.thenOpen (((opens_text (by decide)).append _).append _) hmiddle).thenAny
    hright.words
  rw [List.append_assoc] at hall
  exact hall

theorem writesExpression_comma (h : Phrase limited level depth left)
    (hleft : WritesExpression left) (hright : WritesExpression right) :
    WritesExpression (.mk info (.binary left (some .comma) right)) := by
  have hcomma : Writes .free (.text ", ") [sign .comma] :=
    writes_text [some .comma, none] rfl rfl (by decide)
  unfold WritesExpression
  rw [plain_mk, Grammar.words_binary, joinFirst_append h.words_ne_nil]
  have hall := (hleft.thenOpen (opens_text (by decide)) hcomma).thenAny hright.words
  rw [List.append_assoc] at hall
  exact hall

theorem writesExpression_conditional (h : Phrase limited level depth condition)
    (hcondition : WritesExpression condition) (hleft : WritesExpression left)
    (hright : WritesExpression right) :
    WritesExpression (.mk info (.conditional condition left right)) := by
  have hquestion : Writes .free (.text " ? ") [sign .question] :=
    writes_text [none, some .question, none] rfl rfl (by decide)
  have hcolon : Writes .free (.text " : ") [sign .colon] :=
    writes_text [none, some .colon, none] rfl rfl (by decide)
  unfold WritesExpression
  rw [plain_mk, Grammar.words_conditional, List.append_assoc, joinFirst_append h.words_ne_nil]
  have hall := (((hcondition.thenOpen (opens_text (by decide)) hquestion).thenAny
    hleft.words).thenOpen (opens_text (by decide)) hcolon).thenAny hright.words
  simp only [List.append_assoc, List.cons_append, List.nil_append] at hall
  exact hall

theorem writes_parameters {ending : Ending} {joined : Bool}
    (h : ∀ node ∈ nodes, Writes .word (plain node .parameter) (words node)) :
    Writes ending (parameters (nodes.map fun part => (part, plain part)))
      (⟨(sign .openParen).word, joined⟩ :: commas (nodes.map words) ++ [sign .closeParen]) := by
  rw [parameters_eq]
  exact writes_between writes_openParen writes_closeParen opens_closeParen h

theorem opens_parameters (parts : List Part) : Opens (parameters parts) :=
  ((opens_text (by decide)).append _).append _

theorem writes_function {ending : Ending} {joined : Bool}
    (hname : name.isPresent → Leaf Grammar.isBinding name)
    (hnodes : ∀ node ∈ nodes, Writes .word (plain node .parameter) (words node))
    (hbody : Writes ending (plain body .block) (words body)) :
    Writes ending (functionDoc (name, plain name) (nodes.map fun part => (part, plain part))
        (body, plain body))
      (⟨(sign .functionWord).word, joined⟩ :: words name ++
        between .openParen .closeParen (commas (nodes.map words)) ++ words body) := by
  have hword : Writes .free (.text "function ") [⟨(sign .functionWord).word, joined⟩] :=
    writes_text [some .functionWord, none] rfl rfl (by decide)
  have hblank : Writes .free (.text " ") [] := writes_text [none] rfl rfl (by decide)
  have hlist : Writes .free (parameters (nodes.map fun part => (part, plain part)))
      (between .openParen .closeParen (commas (nodes.map words))) := writes_parameters hnodes
  have hhead : Writes .free (.text "function " ++ plain name .expression ++
      parameters (nodes.map fun part => (part, plain part)))
      (⟨(sign .functionWord).word, joined⟩ :: words name ++
        between .openParen .closeParen (commas (nodes.map words))) := by
    cases name with
    | absent => exact hword.thenEmpty.thenAny hlist
    | mk info shape =>
      exact (hword.thenAny (writesExpression_leaf (hname rfl)).words).thenOpen
        (opens_parameters _) hlist
  have hall := (hhead.thenAny hblank).thenAny hbody
  rw [List.append_nil] at hall
  exact hall

theorem writesExpression_function (hname : name.isPresent → Leaf Grammar.isBinding name)
    (hnodes : ∀ node ∈ nodes, Writes .word (plain node .parameter) (words node))
    (hbody : Writes .word (plain body .block) (words body)) :
    WritesExpression (.mk info (.function .expression name nodes body)) := by
  unfold WritesExpression
  rw [plain_mk, Grammar.words_function (by decide)]
  exact writes_function hname hnodes hbody

theorem writesExpression_arrow (role : Role)
    (hrole : role = if info.flags.expressionBody then .expression else .block)
    (hnodes : ∀ node ∈ nodes, Writes .word (plain node .parameter) (words node))
    (hbody : Writes .word (plain body role) (words body)) :
    WritesExpression (.mk info (.function .arrow name nodes body)) := by
  have harrow : Writes .free (.text " => ") [(sign .arrow).join] :=
    writes_text [none, some .arrow, none] rfl rfl (by decide)
  unfold WritesExpression
  rw [plain_mk, Grammar.words_arrow]
  have hlist : Writes .free (parameters (nodes.map fun part => (part, plain part)))
      (joinFirst (between .openParen .closeParen (commas (nodes.map words)))) :=
    writes_parameters hnodes
  have hall := (hlist.thenAny harrow).thenAny hbody
  rw [List.append_assoc, hrole] at hall
  exact hall

theorem writes_declaring (flags : Tree.Flags) :
    Writes .free (.text (if flags.isConst then "const " else if flags.isLet then "let " else "var "))
      [sign (Grammar.declaringKind flags)] := by
  unfold Grammar.declaringKind
  split
  · exact writes_text [some .constWord, none] rfl rfl (by decide)
  · split
    · exact writes_text [some .letWord, none] rfl rfl (by decide)
    · exact writes_text [some .varWord, none] rfl rfl (by decide)

theorem writes_variables (hne : nodes ≠ [])
    (h : ∀ node ∈ nodes, Writes .word (plain node .declaration) (words node)) :
    Writes .word (plain (.mk info (.variables false nodes)) .declarations)
      (words (.mk info (.variables false nodes))) := by
  have hlist := writes_commas hne h
  rw [← list_eq] at hlist
  rw [plain_mk, Grammar.words_variables]
  exact (writes_declaring info.flags).thenAny hlist

structure WritesStatement (node : Node) : Prop where
  statement : Writes .line (plain node .statement) (words node)
  embedded : Writes .line (plain node .embedded) (words node)
  opens : Opens (plain node .embedded)
  elseBranch : Writes .line (plain node .elseBranch) (words node)
  opensElse : Opens (plain node .elseBranch)

theorem writesStatement_of_line {shape : Shape Node} (hblock : shape.kind ≠ .block)
    (hif : shape.kind ≠ .ifStatement) (hline : StartsLine (words (.mk info shape)))
    (h : Writes .line (plain (.mk info shape) .statement) (words (.mk info shape))) :
    WritesStatement (.mk info shape) := by
  have hbelow : Writes .line (.line ++ .nest (plain (.mk info shape) .statement))
      (words (.mk info shape)) := Writes.line.thenLines hline h.nest
  have hembedded : plain (.mk info shape) .embedded =
      .line ++ .nest (plain (.mk info shape) .statement) := by
    rw [plain_mk]
    change (if (shape.map _).kind == .block then _ else _) = _
    rw [Shape.kind_map, if_neg (by simpa using hblock)]
    rfl
  have helse : plain (.mk info shape) .elseBranch = plain (.mk info shape) .embedded := by
    rw [plain_mk]
    change (if (shape.map _).kind == .ifStatement && _ then _ else _) = _
    rw [Shape.kind_map, if_neg (by simp [hif])]
    rfl
  rw [← hembedded] at hbelow
  have hopens : Opens (plain (.mk info shape) .embedded) := by
    rw [hembedded]
    exact opens_line.append _
  exact ⟨h, hbelow, hopens, helse ▸ hbelow, helse ▸ hopens⟩

theorem writes_statement {shape : Shape Node}
    (h : Writes .line (statementInside .empty info (shape.map fun part => (part, plain part)))
      (words (.mk info shape))) :
    Writes .line (plain (.mk info shape) .statement) (words (.mk info shape)) := by
  have hnone : StartsLine [] := nofun
  have hall := h.thenLines hnone .line
  rw [List.append_nil] at hall
  rw [plain_mk]
  exact hall

theorem writesStatement_block (h : Writes .free (plain (.mk info (.block nodes)) .block)
    (words (.mk info (.block nodes)))) : WritesStatement (.mk info (.block nodes)) := by
  have hstatement : Writes .line (plain (.mk info (.block nodes)) .statement)
      (words (.mk info (.block nodes))) := by
    refine writes_statement (Writes.toLine ?_)
    rw [plain_mk] at h
    exact h
  have hblank : Writes .free (.text " ") [] := writes_text [none] rfl rfl (by decide)
  have hembedded : plain (.mk info (.block nodes)) .embedded =
      .text " " ++ plain (.mk info (.block nodes)) .block := by
    rw [plain_mk]
    rfl
  have helse : plain (.mk info (.block nodes)) .elseBranch =
      plain (.mk info (.block nodes)) .embedded := by
    rw [plain_mk]
    rfl
  have hwrites : Writes .line (plain (.mk info (.block nodes)) .embedded)
      (words (.mk info (.block nodes))) := by
    rw [hembedded]
    exact hblank.thenAny h.toLine
  have hopens : Opens (plain (.mk info (.block nodes)) .embedded) := by
    rw [hembedded]
    exact (opens_text (by decide)).append _
  exact ⟨hstatement, hwrites, hopens, helse ▸ hwrites, helse ▸ hopens⟩

theorem writes_block {ending : Ending}
    (h : ∀ node ∈ nodes, Writes .line (plain node .statement) (words node))
    (hline : ∀ node ∈ nodes, StartsLine (words node) ∧ words node ≠ []) :
    Writes ending (plain (.mk info (.block nodes)) .block) (words (.mk info (.block nodes))) := by
  rw [plain_block, Grammar.words_block]
  exact writes_braced h hline

theorem startsLine_sign {kind : Kind} {ws : List Spelling} : StartsLine (sign kind :: ws) := by
  intro word hword
  cases hword
  rfl

theorem writesStatement_variables (hlist : StartsLine (words value))
    (h : Writes .word (plain value .declarations) (words value)) :
    WritesStatement (.mk info (.variables true [value])) := by
  have hwords := @Grammar.words_variableStatement info value
  refine writesStatement_of_line nofun nofun ?_ (writes_statement (Writes.toLine ?_))
  · rw [hwords]
    cases hvalue : words value with
    | nil => exact startsLine_sign
    | cons first rest =>
      rw [hvalue] at hlist
      exact hlist
  · rw [hwords]
    exact h.thenEmpty.thenOpen opens_semicolon writes_semicolon

theorem writesStatement_function (hname : Leaf Grammar.isBinding name)
    (hnodes : ∀ node ∈ nodes, Writes .word (plain node .parameter) (words node))
    (hbody : Writes .free (plain body .block) (words body)) :
    WritesStatement (.mk info (.function .declaration name nodes body)) := by
  have hwords : words (.mk info (.function .declaration name nodes body)) = _ :=
    Grammar.words_function (by decide)
  refine writesStatement_of_line nofun nofun ?_ (writes_statement (Writes.toLine ?_))
  · rw [hwords]
    exact startsLine_sign
  · rw [hwords]
    exact writes_function (fun _ => hname) hnodes hbody

theorem writesStatement_evaluate (hphrase : Phrase limited level depth value)
    (h : WritesExpression value) : WritesStatement (.mk info (.evaluate value)) := by
  refine writesStatement_of_line nofun nofun ?_ (writes_statement (Writes.toLine ?_))
  · rw [Grammar.words_evaluate]
    have hline := startsLine_words hphrase
    obtain ⟨first, rest, hwords⟩ := List.exists_cons_of_ne_nil hphrase.words_ne_nil
    rw [hwords] at hline ⊢
    exact hline
  · rw [Grammar.words_evaluate]
    exact h.words.thenOpen opens_semicolon writes_semicolon

theorem writesStatement_exit {isThrow : Bool} (h : value.isPresent → WritesExpression value) :
    WritesStatement (.mk info (.exit isThrow value)) := by
  have hword : Writes .word (.text (if isThrow then "throw" else "return"))
      [sign (if isThrow then .throwWord else .returnWord)] := by
    cases isThrow
    · exact writes_sign (genuine_sign (by decide)) rfl
    · exact writes_sign (genuine_sign (by decide)) rfl
  have hblank : Writes .free (.text " ") [] := writes_text [none] rfl rfl (by decide)
  refine writesStatement_of_line (by cases isThrow <;> nofun) (by cases isThrow <;> nofun) ?_
    (writes_statement (Writes.toLine ?_))
  · rw [Grammar.words_exit]
    exact startsLine_sign
  · rw [Grammar.words_exit]
    cases value with
    | absent => exact hword.thenEmpty.thenOpen opens_semicolon writes_semicolon
    | mk info shape =>
      exact (hword.thenOpen ((opens_text (by decide)).append _)
        (hblank.thenAny (h rfl))).thenOpen opens_semicolon writes_semicolon

theorem writesStatement_jump {kind : Tree.Kind}
    (h : kind = .breakStatement ∨ kind = .continueStatement ∨ kind = .emptyStatement) :
    WritesStatement (.mk info (.bare kind)) := by
  refine writesStatement_of_line ?_ ?_ ?_ (writes_statement (Writes.toLine ?_))
  · obtain rfl | rfl | rfl := h <;> nofun
  · obtain rfl | rfl | rfl := h <;> nofun
  · obtain rfl | rfl | rfl := h <;> exact startsLine_sign
  · obtain rfl | rfl | rfl := h
    · exact (writes_text [some .breakWord, some .semicolon] rfl rfl (by decide)).ofText
    · exact (writes_text [some .continueWord, some .semicolon] rfl rfl (by decide)).ofText
    · exact (writes_text [some .semicolon] rfl rfl (by decide)).ofText

theorem writes_headed {doc : Doc} {ws : List Spelling} {s : String} {kind : Kind}
    (hs : Writes .free (.text s) [sign kind, sign .openParen]) (h : Writes .word doc ws) :
    Writes .free (.text s ++ doc ++ .text ")")
      (sign kind :: between .openParen .closeParen ws) := by
  have hall := (hs.thenAny h).thenOpen opens_closeParen (@writes_closeParen .free)
  exact hall

theorem writesStatement_while (hcondition : WritesExpression condition)
    (hbody : WritesStatement body) :
    WritesStatement (.mk info (.loop .while left condition right body)) := by
  have hwhile : Writes .free (.text "while (") [sign .whileWord, sign .openParen] :=
    writes_text [some .whileWord, none, some .openParen] rfl rfl (by decide)
  have hhead := writes_headed hwhile hcondition.words
  refine writesStatement_of_line nofun nofun ?_ (writes_statement ?_)
  · rw [Grammar.words_while]
    exact startsLine_sign
  · rw [Grammar.words_while]
    exact hhead.thenAny hbody.embedded

theorem writesStatement_doWhile (hcondition : WritesExpression condition)
    (hbody : WritesStatement body) :
    WritesStatement (.mk info (.loop .doWhile left condition right body)) := by
  have hdo : Writes .word (.text "do") [sign .doWord] := writes_sign (genuine_sign (by decide)) rfl
  have hwhile : Writes .free (.text "while (") [sign .whileWord, sign .openParen] :=
    writes_text [some .whileWord, none, some .openParen] rfl rfl (by decide)
  have hend : Writes .line (.text ");") [sign .closeParen, sign .semicolon] :=
    writes_text [some .closeParen, some .semicolon] rfl rfl (by decide)
  have hblank : Writes .line (.text " ") [] := writes_text [none] rfl rfl (by decide)
  have hnone : StartsLine [] := nofun
  refine writesStatement_of_line nofun nofun ?_ (writes_statement ?_)
  · rw [Grammar.words_doWhile]
    exact startsLine_sign
  · rw [Grammar.words_doWhile]
    have hfirst := hdo.thenOpen hbody.opens hbody.embedded
    have hgap : Writes .line (.text "do" ++ plain body .embedded ++
        (if isBraced .empty body then .text " " else .empty)) (sign .doWord :: words body) := by
      split
      · have hall := hfirst.thenLines hnone hblank
        rw [List.append_nil] at hall
        exact hall
      · exact hfirst.thenEmpty
    have hall := ((hgap.thenLine startsLine_sign nofun hwhile).thenAny hcondition.words).thenOpen
      (opens_text (by decide)) hend
    simp only [List.append_assoc, List.cons_append, List.nil_append] at hall
    simp only [between, List.append_assoc, List.cons_append, List.nil_append]
    exact hall

theorem writes_part {doc : Doc} {ws : List Spelling} (hdoc : Writes .free doc ws)
    (h : value.isPresent → WritesExpression value) {s : String} {vs : List Spelling}
    (hopens : Opens (.text s)) (hs : Writes .free (.text s) vs) :
    Writes .free (doc ++ Part.expressionAfter (value, plain value) " " ++ .text s)
      (ws ++ words value ++ vs) := by
  have hblank : Writes .free (.text " ") [] := writes_text [none] rfl rfl (by decide)
  cases value with
  | absent =>
    rw [Grammar.words_absent, List.append_nil]
    exact hdoc.thenEmpty.thenAny hs
  | mk info shape =>
    exact (hdoc.thenAny (hblank.thenAny (h rfl).words)).thenOpen hopens hs

theorem writesStatement_for {update : Node}
    (hlist : left.isKind .variableList → Writes .word (plain left .declarations) (words left))
    (hfirst : left.isPresent → left.isKind .variableList = false → WritesExpression left)
    (hcondition : condition.isPresent → WritesExpression condition)
    (hupdate : update.isPresent → WritesExpression update) (hbody : WritesStatement body) :
    WritesStatement (.mk info (.loop .for left condition update body)) := by
  have hfor : Writes .free (.text "for (") [sign .forWord, sign .openParen] :=
    writes_text [some .forWord, none, some .openParen] rfl rfl (by decide)
  have hstart : Writes .free (.text "for (" ++ (if left.isKind .variableList then
      plain left .declarations else plain left .expression) ++ .text ";")
      ([sign .forWord, sign .openParen] ++ words left ++ [sign .semicolon]) := by
    split
    · rename_i hkind
      exact (hfor.thenAny (hlist hkind)).thenOpen opens_semicolon writes_semicolon
    · rename_i hkind
      cases left with
      | absent => exact hfor.thenEmpty.thenAny writes_semicolon
      | mk info shape =>
        exact (hfor.thenAny (hfirst rfl (Bool.eq_false_iff.mpr hkind)).words).thenOpen
          opens_semicolon writes_semicolon
  have hhead := writes_part (writes_part hstart hcondition opens_semicolon writes_semicolon) hupdate
    opens_closeParen writes_closeParen
  refine writesStatement_of_line nofun nofun ?_ (writes_statement ?_)
  · rw [Grammar.words_for]
    exact startsLine_sign
  · rw [Grammar.words_for]
    have hall := hhead.thenAny hbody.embedded
    simp only [List.append_assoc, List.cons_append, List.nil_append] at hall
    simp only [between, List.append_assoc, List.cons_append, List.nil_append]
    exact hall

theorem writes_if (hcondition : WritesExpression condition) (hthen : WritesStatement left)
    (helse : right.isPresent → WritesStatement right) :
    Writes .line (ifDoc .empty ((Shape.branch condition left right).map fun part =>
      (part, plain part))) (words (.mk info (.branch condition left right))) := by
  have hword : Writes .free (.text "if (") [sign .ifWord, sign .openParen] :=
    writes_text [some .ifWord, none, some .openParen] rfl rfl (by decide)
  have hhead := (writes_headed hword hcondition.words).thenAny hthen.embedded
  rw [Grammar.words_branch]
  cases right with
  | absent =>
    have hall := hhead.thenEmpty
    rw [Grammar.announced, if_neg (by rintro ⟨⟩), List.append_nil]
    exact hall
  | mk info shape =>
    have hword : Writes .word (.text (if isBraced .empty left then " else" else "else"))
        [sign .elseWord] := by
      split
      · exact writes_row [none, some .elseWord] rfl rfl (by decide)
      · exact writes_sign (genuine_sign (by decide)) rfl
    have hall := hhead.thenLine startsLine_sign (by simp)
      (hword.thenOpen (helse rfl).opensElse (helse rfl).elseBranch)
    exact hall

theorem writesStatement_if (hcondition : WritesExpression condition) (hthen : WritesStatement left)
    (helse : right.isPresent → WritesStatement right) :
    WritesStatement (.mk info (.branch condition left right)) := by
  have hif := @writes_if info left right condition hcondition hthen helse
  have hblank : Writes .free (.text " ") [] := writes_text [none] rfl rfl (by decide)
  have hstatement : Writes .line (plain (.mk info (.branch condition left right)) .statement)
      (words (.mk info (.branch condition left right))) := writes_statement (by exact hif)
  have hline : StartsLine (words (.mk info (.branch condition left right))) := by
    rw [Grammar.words_branch]
    exact startsLine_sign
  have hembedded : plain (.mk info (.branch condition left right)) .embedded =
      .line ++ .nest (plain (.mk info (.branch condition left right)) .statement) := by
    rw [plain_mk]
    rfl
  have helse : plain (.mk info (.branch condition left right)) .elseBranch = .text " " ++
      ifDoc .empty ((Shape.branch condition left right).map fun part => (part, plain part)) := by
    rw [plain_mk]
    rfl
  refine ⟨hstatement, ?_, ?_, ?_, ?_⟩
  · rw [hembedded]
    exact Writes.line.thenLines hline hstatement.nest
  · rw [hembedded]
    exact opens_line.append _
  · rw [helse]
    exact hblank.thenAny hif
  · rw [helse]
    exact (opens_text (by decide)).append _

end

def WritesAt (level : Level) (node : Node) : Prop :=
  match level with
  | .statement => WritesStatement node
  | .block => ∀ ending, Writes ending (plain node .block) (words node)
  | .parameter => Writes .word (plain node .parameter) (words node)
  | .variable => Writes .word (plain node .declaration) (words node)
  | .variables => Writes .word (plain node .declarations) (words node)
  | _ => WritesExpression node

theorem writesAt_phrase (h : Phrase limited level depth node) (hpoints : PointsApart node) :
    WritesAt level node := by
  induction h with
  | leaf h => exact writesExpression_leaf h
  | word h => exact writesExpression_word h
  | parenthesized _ ih => exact writesExpression_parenthesized (ih (hpoints.part _ (by simp)))
  | array _ ih =>
    exact writesExpression_array fun node hnode => ih node hnode (hpoints.part node hnode)
  | object _ ih =>
    exact writesExpression_object fun node hnode => ih node hnode (hpoints.part node hnode)
  | functionExpression hname _ _ ihNodes ihBody =>
    exact writesExpression_function hname
      (fun node hnode => ihNodes node hnode (hpoints.part node (by simp [hnode])))
      (ihBody (hpoints.part _ (by simp)) _)
  | ofNew _ ih | ofHead _ ih | ofMember _ ih | ofOperand _ ih | ofUnary _ ih | ofBinary _ _ ih
  | ofAssignment _ ih => exact ih hpoints
  | property hname _ ih =>
    exact writesExpression_property hname fun _ => ih (hpoints.part _ (by simp))
  | shorthand hname => exact writesExpression_property hname nofun
  | newListed _ _ _ ih ihNodes =>
    exact writesExpression_newListed (ih (hpoints.part _ (by simp)))
      fun node hnode => ihNodes node hnode (hpoints.part node (by simp [hnode]))
  | newBare _ ih => exact writesExpression_newBare (ih (hpoints.part _ (by simp)))
  | access h hnew _ hkey ih =>
    exact writesExpression_access h rfl (ih (hpoints.part _ (by simp))) hnew
      (hpoints _ _ _ .self) hkey
  | element h _ _ _ ih ihKey =>
    exact writesExpression_element h (ih (hpoints.part _ (by simp)))
      (ihKey (hpoints.part _ (by simp)))
  | call h _ _ _ ih ihNodes =>
    exact writesExpression_call h (ih (hpoints.part _ (by simp)))
      fun node hnode => ihNodes node hnode (hpoints.part node (by simp [hnode]))
  | trailing hoperator h ih =>
    exact writesExpression_trailing h rfl hoperator (ih (hpoints.part _ (by simp)))
  | leading hoperator _ h ih =>
    exact writesExpression_leading hoperator h (ih (hpoints.part _ (by simp)))
  | @operator _ _ _ _ _ _ _ operator _ _ hprecedence _ h _ _ ih ihRight =>
    have hsign : isSign operator ∧ operator ≠ .comma := by
      revert hprecedence
      cases operator <;> decide
    exact writesExpression_binary h hsign.1 hsign.2 (ih (hpoints.part _ (by simp)))
      (ihRight (hpoints.part _ (by simp)))
  | @assign _ _ _ _ _ operator _ _ _ h _ hassigns _ ih ihRight =>
    have hsign : isSign operator ∧ operator ≠ .comma := by
      revert hassigns
      cases operator <;> decide
    exact writesExpression_binary h hsign.1 hsign.2 (ih (hpoints.part _ (by simp)))
      (ihRight (hpoints.part _ (by simp)))
  | conditional _ h _ _ ih ihTrue ihFalse =>
    exact writesExpression_conditional h (ih (hpoints.part _ (by simp)))
      (ihTrue (hpoints.part _ (by simp))) (ihFalse (hpoints.part _ (by simp)))
  | arrowBlock _ _ _ ihNodes ihBody =>
    exact writesExpression_arrow .block rfl
      (fun node hnode => ihNodes node hnode (hpoints.part node (by simp [hnode])))
      (ihBody (hpoints.part _ (by simp)) _)
  | arrowExpression _ _ _ _ ihNodes ihBody =>
    have hbody : WritesExpression _ := ihBody (hpoints.part _ (by simp))
    exact writesExpression_arrow .expression rfl
      (fun node hnode => ihNodes node hnode (hpoints.part node (by simp [hnode])))
      hbody.words
  | comma h _ _ ih ihRight =>
    exact writesExpression_comma h (ih (hpoints.part _ (by simp)))
      (ihRight (hpoints.part _ (by simp)))
  | parameter hname _ ih =>
    have hall := writes_binding hname fun hvalue => ih hvalue (hpoints.part _ (by simp))
    unfold WritesAt
    rw [plain_mk, Grammar.words_parameter]
    exact hall
  | «variable» hname _ ih =>
    have hall := writes_binding hname fun hvalue => ih hvalue (hpoints.part _ (by simp))
    unfold WritesAt
    rw [plain_mk, Grammar.words_variable]
    exact hall
  | «variables» hne _ ih =>
    exact writes_variables hne fun node hnode => ih node hnode (hpoints.part node hnode)
  | block h ih =>
    intro ending
    exact writes_block (fun node hnode => (ih node hnode (hpoints.part node hnode)).statement)
      fun node hnode => ⟨startsLine_words (h node hnode), (h node hnode).words_ne_nil⟩
  | ofBlock _ h ih =>
    have hwrites := ih hpoints .free
    cases h with
    | block => exact writesStatement_block hwrites
  | variableStatement _ h ih =>
    exact writesStatement_variables (startsLine_words h) (ih (hpoints.part _ (by simp)))
  | functionDeclaration _ hname _ _ ihNodes ihBody =>
    exact writesStatement_function hname
      (fun node hnode => ihNodes node hnode (hpoints.part node (by simp [hnode])))
      (ihBody (hpoints.part _ (by simp)) _)
  | branch _ _ _ _ _ ih ihThen ihElse =>
    exact writesStatement_if (ih (hpoints.part _ (by simp)))
      (ihThen (hpoints.part _ (by simp)))
      fun helse => ihElse helse (hpoints.part _ (by simp))
  | forLoop _ _ _ _ _ _ ihList ihFirst ihCondition ihUpdate ihBody =>
    exact writesStatement_for (fun hlist => ihList hlist (hpoints.part _ (by simp)))
      (fun hfirst hkind => ihFirst hfirst hkind (hpoints.part _ (by simp)))
      (fun hthere => ihCondition hthere (hpoints.part _ (by simp)))
      (fun hthere => ihUpdate hthere (hpoints.part _ (by simp)))
      (ihBody (hpoints.part _ (by simp)))
  | whileLoop _ _ _ ih ihBody =>
    exact writesStatement_while (ih (hpoints.part _ (by simp)))
      (ihBody (hpoints.part _ (by simp)))
  | doLoop _ _ _ ih ihBody =>
    exact writesStatement_doWhile (ih (hpoints.part _ (by simp)))
      (ihBody (hpoints.part _ (by simp)))
  | exit _ _ _ ih =>
    exact writesStatement_exit fun hthere => ih hthere (hpoints.part _ (by simp))
  | jump _ h => exact writesStatement_jump h
  | evaluate _ h _ _ ih =>
    exact writesStatement_evaluate h (ih (hpoints.part _ (by simp)))

section
variable {id fin : Nat} {name : String} {statements : List Node}

theorem spells_print (h : ∀ statement ∈ statements, Phrase limited .statement 0 statement)
    (hpoints : PointsApart (.mk ⟨id, 0, fin, {}⟩ (.file name statements))) (arena : Arena) :
    Grammar.SpellAll (Token.list (print arena .empty (.mk ⟨id, 0, fin, {}⟩ (.file name statements))))
      (statements.flatMap words ++ [.endOfFile]) := by
  have hwrites : Writes .line (plain (.mk ⟨id, 0, fin, {}⟩ (.file name statements)) .whole)
      (statements.flatMap words) := by
    rw [plain_file]
    refine writes_concat (fun node hnode => ?_) fun node hnode =>
      ⟨startsLine_words (h node hnode), (h node hnode).words_ne_nil⟩
    exact (writesAt_phrase (h node hnode) (hpoints.part node hnode)).statement
  have hwritten := hwrites.written 0 true [] [] .nil nofun
  rw [List.append_nil, List.append_nil] at hwritten
  rw [print_empty, Doc.render_eq]
  have hspells := hwritten.spells (Nat.lt_succ_self _) 0
  rwa [Token.list, String.toList_ofList]

/-- A printed file is read back, unless it is nested too deep. -/
theorem parse_print (h : ∀ statement ∈ statements, Phrase limited .statement 0 statement)
    (hpoints : PointsApart (.mk ⟨id, 0, fin, {}⟩ (.file name statements))) (arena : Arena)
    {text : String}
    (htext : text = print arena .empty (.mk ⟨id, 0, fin, {}⟩ (.file name statements))) :
    (parse name text).complaints = [] ∧ (parse name text).root.unplaced =
        Node.unplaced (.mk ⟨id, 0, fin, {}⟩ (.file name statements)) ∨
      limited = false ∧
        ∃ start length, (parse name text).complaints = [⟨start, length, .nestingTooDeep⟩] := by
  subst htext
  exact Grammar.parse_words h (spells_print h hpoints arena) (Token.list_rising _)

end

end ArrayLoops.Layout

namespace ArrayLoops

open Layout (PointsApart print)

/-- The tree of a text that is not complained about is printed to a text with the same tree. -/
theorem printed_tree_parses_back {name text : String} (h : (parse name text).complaints = [])
    (hpoints : PointsApart (parse name text).root) :
    let printed := print (parse name text).arena .empty (parse name text).root
    (parse name printed).complaints = [] ∧
      (parse name printed).root.unplaced = (parse name text).root.unplaced := by
  intro printed
  obtain ⟨id, fin, statements, hroot, hall⟩ := Grammar.parse_statements h
  rw [hroot] at hpoints ⊢
  obtain hback | ⟨hlimit, -⟩ := Layout.parse_print hall hpoints (parse name text).arena
    (hroot ▸ rfl : printed = _)
  · exact hback
  · cases hlimit

set_option maxRecDepth 100000 in
theorem printed_tree_parses_back_else :
    let text := "if (a) \x7b if (b) - -c\n\x7d " ++
      "else for (let i = 1.5.e, n; ;) f(x => (\x7b g: 'h' \x7d), !new (i()))"
    (parse "a.js" text).complaints = [] ∧ PointsApart (parse "a.js" text).root ∧
      let printed := print (parse "a.js" text).arena .empty (parse "a.js" text).root
      (parse "a.js" printed).complaints = [] ∧
        (parse "a.js" printed).root.unplaced = (parse "a.js" text).root.unplaced := by
  intro text
  have hclean : (parse "a.js" text).complaints = [] := by decide +kernel
  have hpoints : PointsApart (parse "a.js" text).root := by decide +kernel
  exact ⟨hclean, hpoints, printed_tree_parses_back hclean hpoints⟩

end ArrayLoops
