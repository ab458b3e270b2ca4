import ArrayLoops.Layout.Tree
import ArrayLoops.Proofs.LoopCode
import ArrayLoops.Proofs.Phrases
import Mathlib.Algebra.GroupWithZero.Nat
import Mathlib.Algebra.Order.BigOperators.Group.List
import Mathlib.Algebra.Order.Group.Nat

/-!
# What documents show

Generated code shows the source nodes in it. A node without a directive shows itself, its text if it is
a leaf, and its parts. What a document shows is noted among the texts that it writes.
-/

namespace ArrayLoops

open Lowering (Code Directive Directives)
open ArrayLoops.Tree (Arena Info Node NodeId Shape Slot)

attribute [local simp] Shape.parts Shape.placed Shape.kind

namespace Layout

namespace Doc

def Note.id : Note → NodeId
  | .leaf id _ | .shown id | .followed id => id

variable {note : Note}

@[simp] theorem count_empty : count note empty = 0 := rfl

@[simp] theorem count_text (s : String) : count note (text s) = 0 := rfl

@[simp] theorem count_line : count note line = 0 := rfl

@[simp] theorem count_leaf (id : NodeId) (s : String) :
    count note (leaf id s) = if note = .leaf id s then 1 else 0 := rfl

@[simp] theorem count_mark (id : NodeId) :
    count note (mark id) = if note = .followed id then 1 else 0 := rfl

@[simp] theorem count_append (first second : Doc) :
    count note (first ++ second) = count note first + count note second := rfl

@[simp] theorem count_nest (doc : Doc) : count note (nest doc) = count note doc := rfl

@[simp] theorem count_node (id : NodeId) (doc : Doc) :
    count note (node id doc) = (if note = .shown id then 1 else 0) + count note doc := rfl

@[simp] theorem count_concat (docs : List Doc) :
    count note (concat docs) = (docs.map (count note)).sum := by
  induction docs with
  | nil => rfl
  | cons doc rest ih => rw [List.map_cons, List.sum_cons, ← ih]; rfl

@[simp] theorem count_commaSeparated (docs : List Doc) :
    count note (commaSeparated docs) = (docs.map (count note)).sum := by
  unfold commaSeparated
  fun_induction separated (text ", ") docs with
  | case1 => rfl
  | case2 => simp
  | case3 doc rest _ ih => simp [ih]

@[simp] theorem count_braced (docs : List Doc) :
    count note (braced docs) = (docs.map (count note)).sum := by
  unfold braced
  split
  · next h => simp [List.isEmpty_iff.mp h]
  · simp

/-- What is written, and the notes in their places. -/
inductive Event where
  | text (s : String)
  | note (note : Note)
  deriving DecidableEq, Repr

def Event.words : Event → String
  | .text s | .note (.leaf _ s) => s
  | .note (.shown _) | .note (.followed _) => ""

def margin (w : Writer) (s : String) : String :=
  if w.atLineStart && !s.isEmpty then String.ofList (List.replicate (w.level * w.width) ' ') else ""

def log : Doc → Writer → List Event
  | empty, _ => []
  | text s, w => [.text (margin w s), .text s]
  | leaf id s, w => [.text (margin w s), .note (.leaf id s)]
  | mark id, _ => [.note (.followed id)]
  | line, w => [.text (if w.atLineStart then "" else "\n")]
  | append first second, w => first.log w ++ second.log (first.writeTo w)
  | nest doc, w => doc.log w.indent
  | node id doc, w => .note (.shown id) :: doc.log w

theorem out_write (w : Writer) (s : String) : (w.write s).out = w.out ++ margin w s ++ s := by
  obtain ⟨out, level, width, start⟩ := w
  by_cases hs : s = ""
  · simp [Writer.write, margin, hs]
  · cases start <;> simp [Writer.write, Writer.indented, margin, hs]

theorem out_writeTo (doc : Doc) (w : Writer) :
    (doc.writeTo w).out = (doc.log w).foldl (fun out event => out ++ event.words) w.out := by
  induction doc generalizing w with
  | empty | mark => simp [writeTo, log, Event.words]
  | text s | leaf _ s => exact out_write w s
  | line =>
    obtain ⟨out, level, width, start⟩ := w
    cases start <;> simp [writeTo, log, Event.words, Writer.line, String.push_eq_append]
  | append first second ihFirst ihSecond => rw [writeTo, ihSecond, ihFirst, log, List.foldl_append]
  | nest doc ih => exact ih w.indent
  | node id doc ih => rw [writeTo, ih, log, List.foldl_cons, Event.words, String.append_empty]

theorem count_note_cons (note other : Note) (events : List Event) :
    (Event.note other :: events).count (.note note) =
      (if note = other then 1 else 0) + events.count (.note note) := by
  rw [List.count_cons, Nat.add_comm]
  by_cases h : note = other
  · simp [h]
  · simp [h, Ne.symm h]

theorem count_log (note : Note) (doc : Doc) (w : Writer) :
    (doc.log w).count (.note note) = doc.count note := by
  induction doc generalizing w with
  | empty | text | line => simp [log]
  | leaf => rw [log, List.count_cons_of_ne (by simp), count_note_cons]; rfl
  | mark => rw [log, count_note_cons]; rfl
  | append first second ihFirst ihSecond => rw [log, List.count_append, ihFirst, ihSecond]; rfl
  | nest doc ih => exact ih w.indent
  | node id doc ih => rw [log, count_note_cons, ih]; rfl

end Doc

open Doc (Note)

def log (arena : Arena) (directives : Directives) (node : Node) : List Doc.Event :=
  (docs arena directives node .whole).log (.new Doc.indentWidth)

theorem print_eq_log (arena : Arena) (directives : Directives) (node : Node) :
    print arena directives node = String.join ((log arena directives node).map Doc.Event.words) := by
  rw [print, Doc.render, Doc.out_writeTo, String.join, List.foldl_map]
  rfl

namespace Code

open Lowering.Code (mentions mentions? mentionsIn sources sourcesOf sourcesOf_append)

variable {note : Note} {nodes : NodeDocs}

def countSources (note : Note) (nodes : NodeDocs) (mentions : List Lowering.Code.Mention) : Nat :=
  ((sourcesOf mentions).map fun node => (nodes node .expression).count note).sum

@[simp] theorem countSources_nil : countSources note nodes [] = 0 := rfl

@[simp] theorem countSources_append (mentions others : List Lowering.Code.Mention) :
    countSources note nodes (mentions ++ others) =
      countSources note nodes mentions + countSources note nodes others := by
  simp [countSources, sourcesOf_append]

variable {code : Code} {inside : Doc}
  (hinside : (∀ node, code ≠ .source node) →
    inside.count note = countSources note nodes code.mentions)
include hinside

theorem count_asExpression :
    (asExpression nodes code inside).count note = countSources note nodes code.mentions := by
  cases code with
  | source node => simp [asExpression, countSources, mentions, sourcesOf,
      Lowering.Code.Mention.source?]
  | _ =>
    simp only [asExpression]
    split <;> simp [hinside (by simp)]

theorem count_asStatement (h : ∀ node ∈ code.sources, node.isStatement = false) :
    (asStatement nodes code inside).count note = countSources note nodes code.mentions := by
  cases code with
  | source node =>
    have hnode : node.isStatement = false := h node (List.mem_singleton_self _)
    simp [asStatement, hnode, countSources, mentions, sourcesOf, Lowering.Code.Mention.source?]
  | _ =>
    simp only [asStatement]
    split <;> simp [hinside (by simp)]

theorem count_asBlock (h : ∀ node ∈ code.sources, node.isStatement = false) :
    (asBlock nodes code inside).count note = countSources note nodes code.mentions := by
  cases code with
  | block => exact hinside nofun
  | _ => simpa [asBlock] using count_asStatement hinside h

theorem count_asEither (h : ∀ node ∈ code.sources, node.isStatement = false) :
    (asEither nodes code inside).count note = countSources note nodes code.mentions := by
  unfold asEither
  split
  · exact count_asStatement hinside h
  · exact count_asExpression hinside

omit hinside

attribute [local simp] Code.inside mentions

mutual
theorem count_inside (code : Code) (h : ∀ node ∈ code.sources, node.isStatement = false)
    (hcode : ∀ node, code ≠ .source node) :
    (Code.inside nodes code).count note = countSources note nodes code.mentions := by
  cases code with
  | binary left _ right | element left right =>
    simp only [sources, mentions, sourcesOf_append, List.forall_mem_append] at h
    simp [count_asExpression (count_inside left h.1), count_asExpression (count_inside right h.2)]
  | prefixed _ operand | postfixed operand _ | member operand _ | evaluate operand
  | throw operand =>
    simp only [sources, mentions] at h
    simp [count_asExpression (count_inside operand h)]
  | call callee arguments | new callee arguments =>
    simp only [sources, mentions, sourcesOf_append, List.forall_mem_append] at h
    simp [count_asExpression (count_inside callee h.1), count_expressions arguments h.2]
  | array codes =>
    simp only [sources, mentions] at h
    simp [count_expressions codes h]
  | block codes =>
    simp only [sources, mentions] at h
    simp [count_lines codes h]
  | declare _ value =>
    cases value with
    | none => rfl
    | some value =>
      have hvalue := count_asExpression (count_inside value h)
      simp only [Code.inside, Doc.count_append, Doc.count_text, Nat.zero_add, Nat.add_zero, hvalue]
      rfl
  | branch condition thenBranch elseBranch =>
    simp only [sources, mentions, sourcesOf_append, List.forall_mem_append] at h
    have hcondition := count_asExpression (count_inside condition h.1.1)
    have hthen := count_asBlock (count_inside thenBranch h.1.2) h.1.2
    cases elseBranch with
    | none => simp [mentions?, hcondition, hthen]
    | some code =>
      simp [mentions?, hcondition, hthen, count_asBlock (count_inside code h.2) h.2, Nat.add_assoc]
  | loop initializer condition update body =>
    simp only [sources, mentions, sourcesOf_append, List.forall_mem_append] at h
    have hbody := count_asBlock (count_inside body h.2) h.2
    have hinitializer : ∀ code ∈ initializer,
        (asEither nodes code (Code.inside nodes code)).count note =
          countSources note nodes code.mentions := by
      cases initializer with
      | none => rintro _ ⟨⟩
      | some code =>
        rintro _ ⟨⟩
        exact count_asEither (count_inside code h.1.1.1) h.1.1.1
    have hcondition : ∀ code ∈ condition,
        (asExpression nodes code (Code.inside nodes code)).count note =
          countSources note nodes code.mentions := by
      cases condition with
      | none => rintro _ ⟨⟩
      | some code =>
        rintro _ ⟨⟩
        exact count_asExpression (count_inside code h.1.1.2)
    have hupdate : ∀ code ∈ update,
        (asExpression nodes code (Code.inside nodes code)).count note =
          countSources note nodes code.mentions := by
      cases update with
      | none => rintro _ ⟨⟩
      | some code =>
        rintro _ ⟨⟩
        exact count_asExpression (count_inside code h.1.2)
    cases initializer <;> cases condition <;> cases update <;>
      simp [mentions?, hbody, hinitializer, hcondition, hupdate, Nat.add_assoc]
  | source node => exact absurd rfl (hcode node)
  | _ => rfl
theorem count_expressions (codes : List Code)
    (h : ∀ node ∈ sourcesOf (mentionsIn codes),
      node.isStatement = false) :
    ((expressions nodes codes).map (Doc.count note)).sum =
      countSources note nodes (mentionsIn codes) := by
  cases codes with
  | nil => rfl
  | cons code rest =>
    simp only [mentionsIn, sourcesOf_append, List.forall_mem_append] at h
    simp [expressions, mentionsIn, count_asExpression (count_inside code h.1),
      count_expressions rest h.2]
theorem count_lines (codes : List Code)
    (h : ∀ node ∈ sourcesOf (mentionsIn codes),
      node.isStatement = false) :
    ((lines nodes codes).map (Doc.count note)).sum =
      countSources note nodes (mentionsIn codes) := by
  cases codes with
  | nil => rfl
  | cons code rest =>
    simp only [mentionsIn, sourcesOf_append, List.forall_mem_append] at h
    simp [lines, mentionsIn, count_asStatement (count_inside code h.1) h.1, count_lines rest h.2]
end

theorem count_statements {codes : List Code}
    (h : ∀ node ∈ sourcesOf (mentionsIn codes),
      node.isStatement = false) :
    (statements nodes codes).count note =
      countSources note nodes (mentionsIn codes) := by
  rw [statements, Doc.count_concat, count_lines codes h]

end Code

/-- The roles in which a node in a place is printed. -/
inductive PrintedAs : Slot → Node → Role → Prop where
  | expression {node : Node} : PrintedAs .expression node .expression
  | name {node : Node} : PrintedAs .name node .expression
  | key {node : Node} : PrintedAs .key node .expression
  | property {node : Node} : PrintedAs .property node .expression
  | statement {node : Node} : PrintedAs .statement node .statement
  | embedded {node : Node} : PrintedAs .statement node .embedded
  | elseBranch {node : Node} : PrintedAs .statement node .elseBranch
  | body {node : Node} : PrintedAs .body node .block
  | parameter {node : Node} : PrintedAs .parameter node .parameter
  | variable {node : Node} : PrintedAs .variable node .declaration
  | list {node : Node} : PrintedAs .list node .declarations
  | startList {node : Node} : node.isKind .variableList → PrintedAs .start node .declarations
  | start {node : Node} : node.isKind .variableList = false → PrintedAs .start node .expression

def leafText {α : Type} : Shape α → Option String
  | .identifier text | .literal _ _ text _ => some text
  | .bare (.token kind) =>
    if [.thisWord, .trueWord, .falseWord, .nullWord].contains kind then some kind.spelling else none
  | .bare .breakStatement => some "break;"
  | .bare .continueStatement => some "continue;"
  | .bare .emptyStatement => some ";"
  | _ => none

/-- Nothing of the node is left out when it is printed. -/
def Complete (info : Info) : Shape Node → Prop
  | .unary _ operator _ => operator.isSome
  | .call true _ isListed arguments => isListed = false → arguments = []
  | .function .arrow name _ _ => name = .absent
  | .function _ _ _ _ => info.flags.expressionBody = false
  | _ => True

def spelledAt {α : Type} (note : Note) (info : Info) (shape : Shape α) : Nat :=
  if (leafText shape).any (note = .leaf info.id ·) then 1 else 0

def shownAt (note : Note) (info : Info) : Nat := if note = .shown info.id then 1 else 0

theorem kind_cases {α : Type} {shape : Shape α} (h : shape.kind = .block ∨ shape.kind = .ifStatement) :
    (∃ kind, shape = .bare kind) ∨ (∃ statements, shape = .block statements) ∨
      ∃ condition thenBranch elseBranch, shape = .branch condition thenBranch elseBranch := by
  cases shape with
  | bare kind => exact .inl ⟨kind, rfl⟩
  | block statements => exact .inr (.inl ⟨statements, rfl⟩)
  | branch condition thenBranch elseBranch => exact .inr (.inr ⟨_, _, _, rfl⟩)
  | unary flag _ _ | call flag _ _ _ | access flag _ _ | collection flag _ | exit flag _
  | «variables» flag _ => cases flag <;> simp at h
  | function form _ _ _ | loop form _ _ _ _ => cases form <;> simp at h
  | _ => simp at h

theorem blockDoc_eq (directives : Directives) (info : Info) {shape : Shape Part}
    (h : shape.kind = .block) : blockDoc shape = statementInside directives info shape := by
  obtain ⟨kind, rfl⟩ | ⟨statements, rfl⟩ | ⟨_, _, _, rfl⟩ := kind_cases (.inl h)
  · obtain rfl : kind = .block := h
    rfl
  · rfl
  · cases h

theorem ifDoc_eq (directives : Directives) (info : Info) {shape : Shape Part}
    (h : shape.kind = .ifStatement) :
    ifDoc directives shape = statementInside directives info shape := by
  obtain ⟨kind, rfl⟩ | ⟨_, rfl⟩ | ⟨_, _, _, rfl⟩ := kind_cases (.inr h)
  · obtain rfl : kind = .ifStatement := h
    rfl
  · cases h
  · rfl

section
variable {note : Note} {directives : Directives} {docs : NodeDocs} {info : Info}
  {shape : Shape Node} {seen : Slot × Node → Nat}
  (hdocs : ∀ entry ∈ shape.placed info.flags, ∀ role, PrintedAs entry.1 entry.2 role →
    (docs entry.2 role).count note = seen entry)
  (habsent : ∀ entry ∈ shape.placed info.flags, entry.2 = .absent → seen entry = 0)

theorem count_list (nodes : List Node) {role : Role} {f : Node → Nat}
    (h : ∀ node ∈ nodes, (docs node role).count note = f node) :
    (Part.list (nodes.map fun node => (node, docs node)) role).count note = (nodes.map f).sum := by
  rw [Part.list, Doc.count_commaSeparated, List.map_map, List.map_map]
  exact congrArg List.sum (List.map_congr_left h)

theorem count_expressionAfter {node : Node} (before : String) {n : Nat}
    (h : (docs node .expression).count note = n) (hn : node = .absent → n = 0) :
    (Part.expressionAfter (node, docs node) before).count note = n := by
  unfold Part.expressionAfter
  cases node with
  | absent => rw [hn rfl]; rfl
  | mk => simpa [Part.isPresent, Node.isPresent, Part.expression] using h

theorem count_bindingDoc {name value : Node} {seen : Slot × Node → Nat}
    (hdocs : ∀ entry ∈ [(Slot.name, name), (Slot.expression, value)], ∀ role,
      PrintedAs entry.1 entry.2 role → (docs entry.2 role).count note = seen entry)
    (habsent : value = .absent → seen (.expression, value) = 0) :
    (bindingDoc (name, docs name) (value, docs value)).count note =
      seen (.name, name) + seen (.expression, value) := by
  have hname := hdocs (.name, name) (by simp) _ .name
  have hvalue := count_expressionAfter " = " (hdocs (.expression, value) (by simp) _ .expression)
    habsent
  simp [bindingDoc, Part.expression, hname, hvalue]

theorem count_functionDoc {name body : Node} {params : List Node} {seen : Slot × Node → Nat}
    (hdocs : ∀ entry ∈ (Slot.name, name) :: params.map (Slot.parameter, ·) ++ [(Slot.body, body)],
      ∀ role, PrintedAs entry.1 entry.2 role → (docs entry.2 role).count note = seen entry) :
    (functionDoc (name, docs name) (params.map fun param => (param, docs param))
        (body, docs body)).count note =
      (((Slot.name, name) :: params.map (Slot.parameter, ·) ++ [(Slot.body, body)]).map seen).sum := by
  have hname := hdocs (.name, name) (by simp) _ .name
  have hparams := count_list params fun param hm => hdocs (.parameter, param) (by simp [hm]) _ .parameter
  have hbody := hdocs (.body, body) (by simp) _ .body
  simp [functionDoc, parameters, Part.expression, hname, hparams, hbody, Function.comp_def,
    Nat.add_assoc]

attribute [local simp] Shape.map expressionDoc statementInside Part.expression spelledAt leafText

include hdocs

theorem count_expressionDoc (hcomplete : Complete info shape)
    (habsent : ∀ entry ∈ shape.placed info.flags, entry.2 = .absent → seen entry = 0)
    (hshape : shape.isExpression ∨ ∃ name value, shape = .property name value) :
    (expressionDoc info (shape.map fun part => (part, docs part))).count note =
      spelledAt note info shape + ((shape.placed info.flags).map seen).sum := by
  cases shape with
  | bare kind =>
    cases kind with
    | token kind => cases kind <;> simp
    | _ => simp [Shape.isExpression] at hshape
  | identifier | literal => simp
  | binary left operator right =>
    have hleft := hdocs (.expression, left) (by simp) _ .expression
    have hright := hdocs (.expression, right) (by simp) _ .expression
    simp only [Shape.map, expressionDoc, Doc.count_append, Part.expression, hleft, hright]
    split <;> simp
  | unary isTrailing operator operand =>
    obtain ⟨operator, rfl⟩ := Option.isSome_iff_exists.mp hcomplete
    have hoperand := hdocs (.expression, operand) (by simp) _ .expression
    cases isTrailing with
    | true => simp [hoperand]
    | false =>
      simp only [Shape.map, expressionDoc, Doc.count_append, Part.expression, hoperand]
      split <;> simp
  | call isNew callee isListed args =>
    have hcallee := hdocs (.expression, callee) (by simp) _ .expression
    have hargs := count_list args fun argument hm =>
      hdocs (.expression, argument) (by simp [hm]) _ .expression
    cases isNew with
    | false =>
      simp [arguments, hcallee, hargs, Function.comp_def]
    | true =>
      cases isListed with
      | true =>
        simp [arguments, hcallee, hargs, Function.comp_def]
      | false =>
        obtain rfl : args = [] := hcomplete rfl
        simp [hcallee]
  | access isComputed object key =>
    have hobject := hdocs (.expression, object) (by simp) _ .expression
    cases isComputed with
    | false =>
      have hkey := hdocs (.name, key) (by simp) _ .name
      simp [hobject, hkey]
    | true =>
      have hkey := hdocs (.expression, key) (by simp) _ .expression
      simp [hobject, hkey]
  | conditional condition whenTrue whenFalse =>
    have hcondition := hdocs (.expression, condition) (by simp) _ .expression
    have htrue := hdocs (.expression, whenTrue) (by simp) _ .expression
    have hfalse := hdocs (.expression, whenFalse) (by simp) _ .expression
    simp [hcondition, htrue, hfalse, Nat.add_assoc]
  | collection isObject elements =>
    cases isObject with
    | false =>
      have helements := count_list elements fun element hm =>
        hdocs (.expression, element) (by simp [hm]) _ .expression
      simp [helements, Function.comp_def]
    | true =>
      have helements := count_list elements fun element hm =>
        hdocs (.property, element) (by simp [hm]) _ .property
      cases elements with
      | nil => rfl
      | cons first rest =>
        simp only [Shape.map, List.map_cons, expressionDoc] at helements ⊢
        simp [helements, Function.comp_def]
  | property name value =>
    have hname := hdocs (.key, name) (by simp) _ .key
    have hvalue := count_expressionAfter ": "
      (hdocs (.expression, value) (by simp) _ .expression)
      (habsent (.expression, value) (by simp))
    simp [hname, hvalue]
  | parenthesized expression =>
    have hexpression := hdocs (.expression, expression) (by simp) _ .expression
    simp [hexpression]
  | function form name params body =>
    cases form with
    | declaration => simp [Shape.isExpression] at hshape
    | expression =>
      have hflag : info.flags.expressionBody = false := hcomplete
      simp only [Shape.placed, hflag, Bool.false_eq_true, if_false] at hdocs ⊢
      simpa using count_functionDoc hdocs
    | arrow =>
      obtain rfl : name = .absent := hcomplete
      have hname : seen (.name, .absent) = 0 := habsent _ (by simp) rfl
      have hparams := count_list params fun param hm =>
        hdocs (.parameter, param) (by simp [hm]) _ .parameter
      cases hflag : info.flags.expressionBody with
      | true =>
        have hbody := hdocs (.expression, body) (by simp [hflag]) _ .expression
        simp [arrowDoc, parameters, hflag, hparams, hbody, hname, Function.comp_def]
      | false =>
        have hbody := hdocs (.body, body) (by simp [hflag]) _ .body
        simp [arrowDoc, parameters, hflag, hparams, hbody, hname, Function.comp_def]
  | _ => simp [Shape.isExpression] at hshape

theorem count_statementInside (hcomplete : Complete info shape)
    (hplaced : ∀ entry ∈ shape.placed info.flags, entry.1.admits entry.2)
    (habsent : ∀ entry ∈ shape.placed info.flags, entry.2 = .absent → seen entry = 0)
    (hshape : shape.kind.isStatement) :
    (statementInside directives info (shape.map fun part => (part, docs part))).count note =
      spelledAt note info shape + ((shape.placed info.flags).map seen).sum := by
  cases shape with
  | bare kind =>
    cases kind with
    | token kind => cases kind <;> cases hshape
    | _ => simp
  | block statements =>
    have hstatements : statements.map (fun statement => (docs statement .statement).count note) =
        statements.map fun statement => seen (.statement, statement) :=
      List.map_congr_left fun statement hm =>
        hdocs (.statement, statement) (by simp [hm]) _ .statement
    simp [blockDoc, Function.comp_def, hstatements]
  | «variables» isStatement lists =>
    cases isStatement with
    | false => cases hshape
    | true =>
      have hlists : lists.map (fun list => (docs list .declarations).count note) =
          lists.map fun list => seen (.list, list) :=
        List.map_congr_left fun list hm => hdocs (.list, list) (by simp [hm]) _ .list
      simp [Function.comp_def, hlists]
  | function form name params body =>
    cases form with
    | declaration =>
      have hflag : info.flags.expressionBody = false := hcomplete
      simp only [Shape.placed, hflag, Bool.false_eq_true, if_false] at hdocs ⊢
      simpa using count_functionDoc hdocs
    | _ => cases hshape
  | evaluate expression =>
    have hexpression := hdocs (.expression, expression) (by simp) _ .expression
    simp [hexpression]
  | exit isThrow value =>
    have hvalue := count_expressionAfter " "
      (hdocs (.expression, value) (by simp) _ .expression)
      (habsent (.expression, value) (by simp))
    simp [hvalue]
  | branch condition thenBranch elseBranch =>
    have hcondition := hdocs (.expression, condition) (by simp) _ .expression
    have hthen := hdocs (.statement, thenBranch) (by simp) _ .embedded
    have helse := hdocs (.statement, elseBranch) (by simp) _ .elseBranch
    cases elseBranch with
    | absent =>
      have hnone : seen (.statement, .absent) = 0 := habsent _ (by simp) rfl
      simp [ifDoc, Part.isPresent, Node.isPresent, hcondition, hthen, hnone]
    | mk =>
      simp [ifDoc, Part.isPresent, Node.isPresent, hcondition, hthen, helse, Nat.add_assoc]
  | loop form initializer condition update body =>
    have hvacant := fun node hm =>
      habsent (.vacant, node) hm (Slot.eq_absent (hplaced (.vacant, node) hm))
    have hbody := hdocs (.statement, body) (by cases form <;> simp) _ .embedded
    have hcondition := hdocs (.expression, condition) (by cases form <;> simp) _
      .expression
    cases form with
    | «for» =>
      have hmiddle := count_expressionAfter " " hcondition
        (habsent (.expression, condition) (by simp))
      have hupdate := count_expressionAfter " "
        (hdocs (.expression, update) (by simp) _ .expression)
        (habsent (.expression, update) (by simp))
      cases hlist : initializer.isKind .variableList with
      | true =>
        have hstart := hdocs (.start, initializer) (by simp) _ (.startList hlist)
        simp [loopDoc, hlist, hstart, hmiddle, hupdate, hbody, Nat.add_assoc]
      | false =>
        have hstart := hdocs (.start, initializer) (by simp) _ (.start hlist)
        simp [loopDoc, hlist, hstart, hmiddle, hupdate, hbody, Nat.add_assoc]
    | «while» =>
      simp [loopDoc, hcondition, hbody, hvacant initializer (by simp), hvacant update (by simp)]
    | doWhile =>
      simp only [Shape.map, statementInside, loopDoc, Part.expression, Doc.count_append, hcondition,
        hbody]
      split <;>
        simp [Shape.placed, hvacant initializer (by simp), hvacant update (by simp), Nat.add_comm]
  | unary flag _ _ | call flag _ _ _ | access flag _ _ | collection flag _ | literal flag _ _ _ =>
    cases flag <;> cases hshape
  | _ => cases hshape

omit hdocs in
theorem count_declarationsDoc {declarations : List Node}
    (hdocs : ∀ entry ∈ (Shape.variables false declarations).placed info.flags, ∀ role,
      PrintedAs entry.1 entry.2 role → (docs entry.2 role).count note = seen entry) :
    (declarationsDoc info
        ((Shape.variables false declarations).map fun part => (part, docs part))).count note =
      (((Shape.variables false declarations).placed info.flags).map seen).sum := by
  have hlist := count_list declarations fun declared hm =>
    hdocs (.variable, declared) (by simp [hm]) _ .variable
  simp [declarationsDoc, hlist, Function.comp_def]

theorem count_nodeDoc {arena : Arena} {nodes : NodeDocs} {slot : Slot} {role : Role}
    (hnone : directives.get? info.id = none) (hadmits : slot.admits (.mk info shape))
    (hrole : PrintedAs slot (.mk info shape) role) (hcomplete : Complete info shape)
    (hplaced : ∀ entry ∈ shape.placed info.flags, entry.1.admits entry.2)
    (habsent : ∀ entry ∈ shape.placed info.flags, entry.2 = .absent → seen entry = 0) :
    (nodeDoc arena directives nodes info (shape.map fun part => (part, docs part)) role).count note =
      spelledAt note info shape + ((shape.placed info.flags).map seen).sum := by
  have hexpression (h : shape.isExpression ∨ ∃ name value, shape = .property name value) :
      (nodeDoc.expression arena directives nodes info
          (shape.map fun part => (part, docs part))).count note =
        spelledAt note info shape + ((shape.placed info.flags).map seen).sum := by
    simpa [nodeDoc.expression, hnone] using count_expressionDoc hdocs hcomplete habsent h
  have hinside (h : shape.kind.isStatement) :
      (statementInside directives info (shape.map fun part => (part, docs part))).count note =
        spelledAt note info shape + ((shape.placed info.flags).map seen).sum :=
    count_statementInside hdocs hcomplete hplaced habsent h
  have hstatement (h : shape.kind.isStatement) :
      (nodeDoc.statement directives nodes info (shape.map fun part => (part, docs part))).count note =
        spelledAt note info shape + ((shape.placed info.flags).map seen).sum := by
    simpa [nodeDoc.statement, hnone, statementDoc] using hinside h
  have hembedded (h : shape.kind.isStatement) :
      (nodeDoc.embedded directives nodes info (shape.map fun part => (part, docs part))).count note =
        spelledAt note info shape + ((shape.placed info.flags).map seen).sum := by
    simp only [nodeDoc.embedded, hnone]
    split
    · next hblock =>
      rw [beq_iff_eq] at hblock
      rw [blockDoc_eq directives info hblock]
      simpa using hinside h
    · simpa using hstatement h
  cases hrole with
  | expression => exact hexpression (.inl hadmits)
  | name | key | property =>
    cases shape with
    | identifier | literal => exact hexpression (.inl rfl)
    | property name value => exact hexpression (.inr ⟨name, value, rfl⟩)
    | _ => cases hadmits
  | start h =>
    refine hexpression (.inl ?_)
    cases shape with
    | «variables» isStatement _ => cases isStatement <;> trivial
    | _ => exact hadmits
  | statement => exact hstatement hadmits
  | embedded => exact hembedded hadmits
  | elseBranch =>
    simp only [nodeDoc]
    split
    · next hif =>
      rw [Bool.and_eq_true, beq_iff_eq] at hif
      rw [ifDoc_eq directives info hif.1]
      simpa using hinside hadmits
    · exact hembedded hadmits
  | body =>
    cases shape with
    | block => exact hinside rfl
    | _ => cases hadmits
  | parameter =>
    cases shape with
    | parameter name value =>
      simpa [nodeDoc] using
        count_bindingDoc hdocs (habsent (.expression, value) (by simp))
    | _ => cases hadmits
  | «variable» =>
    cases shape with
    | «variable» name value =>
      simpa [nodeDoc] using
        count_bindingDoc hdocs (habsent (.expression, value) (by simp))
    | _ => cases hadmits
  | list =>
    cases shape with
    | «variables» isStatement declarations =>
      cases isStatement with
      | true => cases hadmits
      | false => simpa [nodeDoc] using count_declarationsDoc hdocs
    | _ => cases hadmits
  | startList h =>
    cases shape with
    | «variables» isStatement declarations =>
      cases isStatement with
      | true => cases h
      | false => simpa [nodeDoc] using count_declarationsDoc hdocs
    | bare kind => cases kind <;> trivial
    | literal flag _ _ _ | unary flag _ _ | call flag _ _ _ | access flag _ _ | collection flag _
    | exit flag _ => cases flag <;> cases h
    | function form _ _ _ | loop form _ _ _ _ => cases form <;> cases h
    | _ => cases h

end

theorem complete_of_phrase {limited : Bool} {info : Info} {shape : Shape Node}
    (h : Grammar.IsPhrase limited (.mk info shape)) : Complete info shape := by
  obtain ⟨level, depth, hphrase⟩ | ⟨kinds, hleaf⟩ := h
  · generalize hnode : Node.mk info shape = node at hphrase
    induction hphrase with
    | leaf hleaf => cases hleaf <;> cases hnode <;> trivial
    | ofNew _ ih | ofHead _ ih | ofMember _ ih | ofOperand _ ih | ofUnary _ ih | ofBinary _ _ ih
    | ofAssignment _ ih | ofBlock _ _ ih => exact ih hnode
    | newListed => cases hnode; exact nofun
    | newBare => cases hnode; exact fun _ => rfl
    | trailing | leading | functionExpression | functionDeclaration | arrowBlock
    | arrowExpression => cases hnode; rfl
    | _ => cases hnode; trivial
  · cases hleaf <;> trivial

theorem count_spliced {note : Note} {arena : Arena} {directives : Directives} {nodes : NodeDocs}
    {info : Info} {shape : Shape Part} {before : List Code} {replacement : Option (List Code)}
    {node : Node} {role : Role} (hentry : directives.get? info.id = some (.splice before replacement))
    (hrole : PrintedAs .statement node role)
    (hsources : ∀ node ∈ Code.sourcesOf
      (Code.mentionsIn (before ++ replacement.getD [])), node.isStatement = false) :
    (nodeDoc arena directives nodes info shape role).count note =
      (if note = .followed info.id then 1 else 0) +
        Code.countSources note nodes (Code.mentionsIn (before ++ replacement.getD [])) +
          if replacement.isSome then 0 else (statementInside directives info shape).count note := by
  rw [Code.mentionsIn_append, Code.sourcesOf_append, List.forall_mem_append]
    at hsources
  have hstatement : (nodeDoc.statement directives nodes info shape).count note =
      (if note = .followed info.id then 1 else 0) +
        Code.countSources note nodes (Code.mentionsIn (before ++ replacement.getD [])) +
          if replacement.isSome then 0 else (statementInside directives info shape).count note := by
    rw [Code.mentionsIn_append, Code.countSources_append]
    cases replacement with
    | none =>
      simp [nodeDoc.statement, hentry, statementDoc, Code.count_statements hsources.1,
        Code.mentionsIn]
    | some codes =>
      have hcodes : (Code.statements nodes codes).count note = _ :=
        Code.count_statements hsources.2
      simp [nodeDoc.statement, hentry, Code.count_statements hsources.1, hcodes, Nat.add_assoc]
  have hembedded : (nodeDoc.embedded directives nodes info shape).count note =
      (nodeDoc.statement directives nodes info shape).count note := by
    simp [nodeDoc.embedded, hentry]
  cases hrole with
  | statement => exact hstatement
  | embedded => exact hembedded.trans hstatement
  | elseBranch =>
    have hcontains : directives.contains info.id = true := by simp [Directives.contains, hentry]
    simpa [nodeDoc, hcontains] using hembedded.trans hstatement

theorem count_substituted {note : Note} {arena : Arena} {nodes : NodeDocs} {id : NodeId}
    {value : Code} (h : value.sources = []) :
    (substituted arena nodes id value).count note = 0 := by
  have hnone : ∀ node ∈ value.sources, node.isStatement = false := by simp [h]
  have hvalue : (Code.doc nodes value).count note = 0 := by
    rw [Code.doc, Code.count_asEither (Code.count_inside value hnone) hnone, Code.countSources]
    rw [Code.sources] at h
    rw [h]
    rfl
  unfold substituted
  split <;> simp [hvalue]

def roleIn : Slot → Node → Role
  | .statement, _ => .statement
  | .body, _ => .block
  | .parameter, _ => .parameter
  | .variable, _ => .declaration
  | .list, _ => .declarations
  | .start, node => if node.isKind .variableList then .declarations else .expression
  | _, _ => .expression

theorem printedAs_roleIn {slot : Slot} (h : slot ≠ .vacant) (node : Node) :
    PrintedAs slot node (roleIn slot node) := by
  cases slot with
  | vacant => exact absurd rfl h
  | start =>
    rw [roleIn]
    split
    · next hlist => exact .startList hlist
    · next hlist => exact .start (by simpa using hlist)
  | _ => constructor

/-- How deep directives can lead to directives from a node. -/
def need (directives : Directives) (node : Node) : Nat := node.ids.countP directives.contains

variable {arena : Arena} {directives : Directives} {info : Info} {shape : Shape Node}

theorem need_mk : need directives (.mk info shape) =
    (shape.parts.map (need directives)).sum + if directives.contains info.id then 1 else 0 := by
  rw [need, Node.ids_mk, List.countP_cons, List.countP_flatMap]
  rfl

theorem need_part {part : Node} (hp : part ∈ shape.parts) :
    need directives part + (if directives.contains info.id then 1 else 0) ≤
      need directives (.mk info shape) := by
  rw [need_mk]
  exact Nat.add_le_add_right (List.le_sum_of_mem (List.mem_map_of_mem hp)) _

theorem need_pos (h : (directives.get? info.id).isSome) :
    need directives (.mk info shape) ≠ 0 := by
  rw [need_mk, if_pos (by exact h)]
  exact Nat.succ_ne_zero _

theorem need_directed {count : Nat} (h : (directives.get? info.id).isSome)
    (hcount : need directives (.mk info shape) ≤ count + 1) :
    ∀ part ∈ shape.parts, need directives part ≤ count := by
  intro part hp
  have hpart : need directives part + (if directives.contains info.id then 1 else 0) ≤
      need directives (.mk info shape) := need_part hp
  rw [if_pos (by exact h)] at hpart
  omega

theorem need_parts {count : Nat} (h : need directives (.mk info shape) ≤ count) :
    ∀ part ∈ shape.parts, need directives part ≤ count := fun _ hp =>
  (Nat.le_add_right _ _).trans ((need_part hp).trans h)

theorem need_within {node inner : Node} (h : inner.Within node) :
    need directives inner ≤ need directives node := by
  induction h with
  | self => exact Nat.le_refl _
  | part hp _ ih => exact ih.trans (need_parts (Nat.le_refl _) _ hp)

def inner (arena : Arena) (directives : Directives) : Nat → NodeDocs
  | 0 => fun _ _ => .empty
  | count + 1 => nodeDocs arena directives count

theorem nodeDocs_absent (count : Nat) : nodeDocs arena directives count .absent = absentDoc := by
  cases count <;> rfl

theorem nodeDocs_mk (count : Nat) :
    nodeDocs arena directives count (.mk info shape) = fun role =>
      .node info.id (nodeDoc arena directives (inner arena directives count) info
        (shape.map fun part => (part, nodeDocs arena directives count part)) role) := by
  cases count <;> rw [nodeDocs, docsWith, Node.fold_mk] <;> rfl

theorem count_nodeDocs {note : Note} (count : Nat) (role : Role) :
    (nodeDocs arena directives count (.mk info shape) role).count note = shownAt note info +
      (nodeDoc arena directives (inner arena directives count) info
        (shape.map fun part => (part, nodeDocs arena directives count part)) role).count note := by
  rw [nodeDocs_mk]
  rfl

end Layout

end ArrayLoops
