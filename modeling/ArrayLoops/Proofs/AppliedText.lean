import ArrayLoops.Proofs.GeneratedCode
import ArrayLoops.Proofs.Notes

/-!
# Directives printed and applied

Printing a tree as directives say is printing the tree that the directives make of it. Documents are
compared by the characters that they put: marks put none, and it does not matter how a document is
put together.
-/

namespace ArrayLoops.Layout

open Lowering (Applied Code Directive Directives inPlace rebuild)
open ArrayLoops.Tree (Arena Info Node NodeId Shape)

attribute [local simp] Shape.parts

namespace Doc

def joined (first second : Nat → Bool → List Char × Bool) (level : Nat) (start : Bool) :
    List Char × Bool :=
  let before := first level start
  let behind := second level before.2
  (before.1 ++ behind.1, behind.2)

section
variable {a b c : Nat → Bool → List Char × Bool}

theorem joined_assoc : joined (joined a b) c = joined a (joined b c) := by
  funext level start
  simp [joined]

theorem empty_joined : joined empty.put a = a := rfl

theorem joined_empty : joined a empty.put = a := by
  funext level start
  simp [joined, put]

end

theorem put_append (first second : Doc) : (first ++ second).put = joined first.put second.put := rfl

theorem put_mark (id : NodeId) : (mark id).put = empty.put := rfl

theorem put_node (id : NodeId) (doc : Doc) : (node id doc).put = doc.put := rfl

theorem put_leaf (id : NodeId) (s : String) : (leaf id s).put = (text s).put := rfl

theorem put_text_append (s t : String) : (text (s ++ t)).put = joined (text s).put (text t).put := by
  funext level start
  by_cases hs : s = ""
  · simp [joined, put, putText, hs]
  · by_cases ht : t = ""
    · simp [joined, put, putText, ht]
    · have hst : (s ++ t).isEmpty = false := by simp [hs]
      simp [joined, put, putText, hs, ht, hst]

theorem put_nest_congr {a b : Doc} (h : a.put = b.put) : (nest a).put = (nest b).put := by
  funext level start
  simp only [put, h]

theorem put_concat_cons (doc : Doc) (docs : List Doc) :
    (concat (doc :: docs)).put = joined doc.put (concat docs).put := rfl

theorem put_concat_nil : (concat []).put = empty.put := rfl

theorem put_concat_append (docs more : List Doc) :
    (concat (docs ++ more)).put = joined (concat docs).put (concat more).put := by
  induction docs with
  | nil => rfl
  | cons doc docs ih => rw [List.cons_append, put_concat_cons, ih, put_concat_cons, joined_assoc]

theorem put_concat_congr {α : Type} {items : List α} {f g : α → Doc}
    (h : ∀ item ∈ items, (f item).put = (g item).put) :
    (concat (items.map f)).put = (concat (items.map g)).put := by
  induction items with
  | nil => rfl
  | cons item items ih =>
    rw [List.forall_mem_cons] at h
    rw [List.map_cons, List.map_cons, put_concat_cons, put_concat_cons, h.1, ih h.2]

theorem put_commaSeparated_congr {α : Type} {items : List α} {f g : α → Doc}
    (h : ∀ item ∈ items, (f item).put = (g item).put) :
    (commaSeparated (items.map f)).put = (commaSeparated (items.map g)).put := by
  unfold commaSeparated
  induction items with
  | nil => rfl
  | cons item items ih =>
    rw [List.forall_mem_cons] at h
    cases items with
    | nil => exact h.1
    | cons next items =>
      simp only [List.map_cons, separated, put_append, h.1] at ih ⊢
      rw [ih h.2]

theorem put_braced_congr {docs more : List Doc} (hempty : docs = [] ↔ more = [])
    (h : (concat docs).put = (concat more).put) : (braced docs).put = (braced more).put := by
  unfold braced
  by_cases hdocs : docs = []
  · rw [hdocs, hempty.mp hdocs]
  · have hmore : more ≠ [] := fun hm => hdocs (hempty.mpr hm)
    rw [if_neg (by simpa using hdocs), if_neg (by simpa using hmore)]
    simp only [put_append, put_nest_congr h]

end Doc

open Doc (put_append put_leaf put_mark put_node put_text_append joined joined_assoc joined_empty empty_joined
  put_concat_nil put_concat_cons put_concat_append put_concat_congr put_commaSeparated_congr put_nest_congr
  put_braced_congr)

theorem plain_absent (role : Role) : plain .absent role = absentDoc role := rfl

section
variable (info : Info)

theorem plain_expression (shape : Shape Node) : plain (.mk info shape) .expression =
    expressionDoc info (shape.map fun part => (part, plain part)) := by
  rw [plain_mk]
  rfl

theorem plain_statement (shape : Shape Node) : plain (.mk info shape) .statement =
    statementDoc .empty info (shape.map fun part => (part, plain part)) := by
  rw [plain_mk]
  rfl

theorem plain_declarations (shape : Shape Node) : plain (.mk info shape) .declarations =
    declarationsDoc info (shape.map fun part => (part, plain part)) := by
  rw [plain_mk]
  rfl

theorem plain_declaration (name value : Node) : plain (.mk info (.variable name value)) .declaration =
    bindingDoc (name, plain name) (value, plain value) := by
  rw [plain_mk]
  rfl

theorem plain_embedded_block (statements : List Node) :
    plain (.mk info (.block statements)) .embedded =
      .text " " ++ blockDoc (.block (statements.map fun part => (part, plain part))) := by
  rw [plain_mk]
  rfl

end

namespace Code

def PrintsAs (nodes : NodeDocs) (code : Code) (node : Node) : Code.Place → Prop
  | .statement => (asStatement nodes code (inside nodes code)).put = (plain node .statement).put
  | _ => (asExpression nodes code (inside nodes code)).put = (plain node .expression).put ∧
    node.isPresent

section
variable {P : Node → Prop} {nodes : NodeDocs} {others : Node → Node} {info : Info}

theorem lines_eq_map (nodes : NodeDocs) (codes : List Code) :
    lines nodes codes = codes.map fun code => asStatement nodes code (inside nodes code) := by
  induction codes with
  | nil => rfl
  | cons code rest ih => rw [lines, ih, List.map_cons]

theorem expressions_eq_map (nodes : NodeDocs) (codes : List Code) :
    expressions nodes codes = codes.map fun code => asExpression nodes code (inside nodes code) := by
  induction codes with
  | nil => rfl
  | cons code rest ih => rw [expressions, ih, List.map_cons]

theorem put_list {codes : List Code}
    (h : ∀ code ∈ codes, PrintsAs nodes code (code.node info others) .operand) :
    (Doc.commaSeparated (expressions nodes codes)).put =
      (Part.list ((Code.nodeList info others codes).map fun part => (part, plain part))
        .expression).put := by
  rw [expressions_eq_map, Part.list, List.map_map, Code.nodeList_eq_map, List.map_map]
  exact put_commaSeparated_congr fun code hc => (h code hc).1

theorem put_block {codes : List Code}
    (h : ∀ code ∈ codes, PrintsAs nodes code (code.node info others) .statement) :
    (Doc.braced (lines nodes codes)).put =
      (blockDoc (.block ((Code.nodeList info others codes).map fun part => (part, plain part)))).put := by
  refine put_braced_congr (by simp [lines_eq_map, Code.nodeList_eq_map]) ?_
  rw [lines_eq_map, List.map_map, Code.nodeList_eq_map, List.map_map]
  exact put_concat_congr h

theorem joined_text (s t : String) :
    joined (Doc.text s).put (Doc.text t).put = (Doc.text (s ++ t)).put :=
  (put_text_append s t).symm

theorem joined_texts (s t : String) {rest : Nat → Bool → List Char × Bool} :
    joined (Doc.text s).put (joined (Doc.text t).put rest) = joined (Doc.text (s ++ t)).put rest := by
  rw [put_text_append, joined_assoc]

theorem operatorKind?_used : Code.operatorKind? "<" = some .less ∧
    Code.operatorKind? "===" = some .identical ∧ Code.operatorKind? "!" = some .not ∧
    Code.operatorKind? "++" = some .increment ∧ Code.operatorKind? "=" = some .assign := by
  decide +kernel

-- What the code and the tree are laid out as, and how texts next to each other are put.
attribute [local simp] inside asExpression_ne asStatement_ne asBlock expressions Code.isStatement
  Code.node Code.node? Code.nodeList Code.numeral Code.not Code.assign Code.when
  operatorKind?_used Shape.map plain_absent plain_expression plain_statement plain_declarations
  plain_declaration plain_embedded_block expressionDoc arguments statementDoc statementInside ifDoc
  loopDoc absentDoc Part.expression Part.expressionAfter Part.isPresent
  Token.Kind.spelling put_append put_leaf joined_assoc joined_empty empty_joined joined_text joined_texts
  String.append_assoc

theorem put_declaration (hflags : info.flags = {}) (text : String) (value : Node) :
    (plain (Code.declaration info text value) .statement).put =
      joined (Doc.text ("var " ++ text)).put
        (joined (Part.expressionAfter (value, plain value) " = ").put
          (joined (Doc.text ";").put Doc.line.put)) := by
  simp [Code.declaration, declarationsDoc, bindingDoc, hflags, Part.list, Doc.commaSeparated,
    Doc.separated, put_concat_cons, put_concat_nil]

theorem printsAs_of_stands {place : Code.Place} {code : Code} (h : Code.Stands P place code)
    (hflags : info.flags = {})
    (hsources : ∀ node, P node → (nodes node .expression).put = (plain (others node) .expression).put ∧
      (others node).isPresent) :
    PrintsAs nodes code (code.node info others) place := by
  induction h with
  | number | string | name | member | increment => exact ⟨by simp, rfl⟩
  | array => exact ⟨by simp [Part.list], rfl⟩
  | @boolean value => cases value <;> exact ⟨by simp, rfl⟩
  | element _ _ ih => exact ⟨by simp [ih.1], rfl⟩
  | call _ _ ih ihArguments => exact ⟨by simp [ih.1, put_list ihArguments], rfl⟩
  | new _ _ ih => exact ⟨by simp [put_list ih], rfl⟩
  | ofOperand _ ih => exact ih
  | undefined =>
    have hword : Token.Kind.voidWord.isReservedWord = true := rfl
    exact ⟨by simp [hword], rfl⟩
  | compare _ hoperator _ ih ihRight =>
    obtain rfl | rfl := hoperator <;> exact ⟨by simp [ih.1, ihRight.1], rfl⟩
  | not _ ih =>
    have hword : Token.Kind.not.isReservedWord = false := rfl
    exact ⟨by simp [hword, wouldFuse, ih.1], rfl⟩
  | declare => simp [PrintsAs, put_declaration hflags]
  | initial _ _ ih => simp [PrintsAs, put_declaration hflags, ih.1, ih.2]
  | capture _ hnode => simp [PrintsAs, asExpression, put_declaration hflags, hsources _ hnode]
  | assign _ _ ih | evaluate _ ih | throw _ ih => simp [PrintsAs, ih.1, ih.2]
  | when _ _ ih ihStatements => simp [PrintsAs, ih.1, put_block ihStatements]
  | loop _ _ _ ih ihUpdate ihStatements =>
    simp [PrintsAs, ih.1, ih.2, ihUpdate.1, ihUpdate.2, put_block ihStatements]
  | «break» => simp [PrintsAs]

end

end Code

def Role.isInner : Role → Bool
  | .expression | .block | .declarations | .declaration | .parameter => true
  | _ => false

/-- The parts are printed alike where the second takes the place of the first. -/
structure Alike (a b : Part) : Prop where
  present : b.isPresent = a.isPresent
  isList : b.1.isKind .variableList = a.1.isKind .variableList
  fuses : ∀ operator, wouldFuse operator b.1 = wouldFuse operator a.1
  docs : ∀ role, role.isInner → (a.2 role).put = (b.2 role).put

namespace Alike

variable {a b : Part}

theorem expression (h : Alike a b) : a.expression.put = b.expression.put := h.docs .expression rfl

theorem expressionAfter (h : Alike a b) (before : String) :
    (a.expressionAfter before).put = (b.expressionAfter before).put := by
  unfold Part.expressionAfter
  rw [h.present]
  split
  · rw [put_append, put_append, h.expression]
  · rfl

theorem list {nodes : List Node} {f g : Node → Part} (h : ∀ node ∈ nodes, Alike (f node) (g node))
    {role : Role} (hrole : role.isInner) :
    (Part.list (nodes.map f) role).put = (Part.list (nodes.map g) role).put := by
  rw [Part.list, Part.list, List.map_map, List.map_map]
  exact put_commaSeparated_congr fun node hn => (h node hn).docs role hrole

end Alike

section
variable {info : Info} {shape : Shape Node} {f g : Node → Part}
  (h : ∀ part ∈ shape.parts, Alike (f part) (g part))
include h

theorem put_expressionDoc :
    (expressionDoc info (shape.map f)).put = (expressionDoc info (shape.map g)).put := by
  cases shape with
  | identifier | literal | block | file | branch | loop | «variable» | parameter | evaluate | exit
  | «variables» | bare => rfl
  | binary left operator right =>
    simp only [Shape.map, expressionDoc, put_append, (h left (by simp)).expression,
      (h right (by simp)).expression]
  | unary isTrailing operator operand =>
    have hoperand := h operand (by simp)
    cases isTrailing <;> cases operator
    · rfl
    · simp only [Shape.map, expressionDoc, put_append, hoperand.expression, hoperand.fuses]
    · simpa only [Shape.map, expressionDoc] using hoperand.expression
    · simp only [Shape.map, expressionDoc, put_append, hoperand.expression]
  | call isNew callee isListed arguments =>
    have hcallee := (h callee (by simp)).expression
    have harguments : (Layout.arguments (arguments.map f)).put = (Layout.arguments (arguments.map g)).put := by
      simp only [Layout.arguments, put_append]
      rw [Alike.list (fun node hn => h node (by simp [hn])) rfl]
    cases isNew
    · simp only [Shape.map, expressionDoc, put_append, hcallee, harguments]
    · cases isListed <;>
        simp [Shape.map, expressionDoc, put_append, hcallee, harguments]
  | access isComputed object key =>
    have hobject := (h object (by simp)).expression
    have hkey := (h key (by simp)).expression
    cases isComputed <;> simp only [Shape.map, expressionDoc, put_append, hobject, hkey]
  | conditional condition whenTrue whenFalse =>
    simp only [Shape.map, expressionDoc, put_append, (h condition (by simp)).expression,
      (h whenTrue (by simp)).expression,
      (h whenFalse (by simp)).expression]
  | collection isObject elements =>
    have hlist : (Part.list (elements.map f) .expression).put =
        (Part.list (elements.map g) .expression).put := Alike.list h rfl
    cases isObject with
    | false => simp only [Shape.map, expressionDoc, put_append, hlist]
    | true =>
      cases elements with
      | nil => rfl
      | cons element elements =>
        simp only [Shape.map, List.map_cons, expressionDoc, put_append] at hlist ⊢
        rw [hlist]
  | property name value =>
    simp only [Shape.map, expressionDoc, put_append, (h name (by simp)).expression,
      (h value (by simp)).expressionAfter]
  | parenthesized expression =>
    simp only [Shape.map, expressionDoc, put_append, (h expression (by simp)).expression]
  | function form name parameters body =>
    have hname := (h name (by simp)).expression
    have hbody := (h body (by simp)).docs
    have hparameters : (Layout.parameters (parameters.map f)).put =
        (Layout.parameters (parameters.map g)).put := by
      simp only [Layout.parameters, put_append]
      rw [Alike.list (fun node hn => h node (by simp [hn])) rfl]
    cases form with
    | declaration => rfl
    | expression =>
      simp only [Shape.map, expressionDoc, functionDoc, put_append, hname, hparameters, hbody .block rfl]
    | arrow =>
      simp only [Shape.map, expressionDoc, arrowDoc, put_append, hparameters]
      rw [hbody _ (by split <;> rfl)]

end

/-- What a node is printed as is what it becomes, in all its places. -/
structure PrintsApplied (directives : Directives) (docs : NodeDocs) (node : Node) (applied : Applied) :
    Prop where
  inner : Alike (node, docs node) (applied.node, plain applied.node)
  statement : (docs node .statement).put = (Doc.concat (applied.items.map (plain · .statement))).put
  items : node.isPresent → applied.items ≠ []
  embedded : (docs node .embedded).put = (plain applied.embedded .embedded).put
  elseBranch : (docs node .elseBranch).put = (plain applied.embedded .elseBranch).put
  braced : isBraced .empty applied.embedded = isBraced directives node
  present : applied.embedded.isPresent = node.isPresent

section
variable {directives : Directives} {docs : NodeDocs} {applied : Node → Applied} {info : Info}
  {shape : Shape Node}

theorem rebuild_map {shape : Shape Node} (hkind : shape.holdsStatements = false) (applied : Node → Applied) :
    rebuild (shape.map applied) = shape.map fun part => (applied part).node := by
  cases shape with
  | block | file | branch | loop => cases hkind
  | _ => simp [Shape.map, rebuild]

theorem put_concat_statements {nodes : List Node}
    (h : ∀ node ∈ nodes, PrintsApplied directives docs node (applied node)) :
    (Doc.concat (nodes.map (docs · .statement))).put =
      (Doc.concat ((nodes.flatMap fun node => (applied node).items).map (plain · .statement))).put := by
  induction nodes with
  | nil => rfl
  | cons node nodes ih =>
    rw [List.forall_mem_cons] at h
    rw [List.map_cons, put_concat_cons, List.flatMap_cons, List.map_append, put_concat_append,
      ih h.2, h.1.statement]

variable (h : ∀ part ∈ shape.parts, PrintsApplied directives docs part (applied part))
include h

theorem put_blockDoc (hfull : ∀ statements, shape = .block statements → ∀ node ∈ statements, node.isPresent) :
    (blockDoc (shape.map fun part => (part, docs part))).put =
      (blockDoc ((rebuild (shape.map applied)).map fun part => (part, plain part))).put := by
  cases shape with
  | block statements =>
    simp only [Shape.map, rebuild, blockDoc, List.flatMap_map, List.map_map, Function.comp_def]
    refine put_braced_congr ?_ (put_concat_statements h)
    cases statements with
    | nil => simp
    | cons node rest =>
      have hitems := (h node List.mem_cons_self).items (hfull _ rfl node List.mem_cons_self)
      simp [hitems]
  | _ => rfl

theorem put_ifDoc : (ifDoc directives (shape.map fun part => (part, docs part))).put =
    (ifDoc .empty ((rebuild (shape.map applied)).map fun part => (part, plain part))).put := by
  cases shape with
  | branch condition thenBranch elseBranch =>
    have hcondition := (h condition (by simp)).inner.expression
    have hthen := h thenBranch (by simp)
    have helse := h elseBranch (by simp)
    simp only [Shape.map, rebuild, ifDoc, put_append, Part.isPresent, helse.present, hthen.braced]
    simp only [Part.expression] at hcondition ⊢
    rw [hcondition, hthen.embedded]
    by_cases hpresent : elseBranch.isPresent
    · simp only [hpresent, if_true, put_append, helse.elseBranch]
    · simp only [hpresent, Bool.false_eq_true, if_false]
  | _ => rfl

theorem alike_parts : ∀ part ∈ shape.parts,
    Alike (part, docs part) ((applied part).node, plain (applied part).node) :=
  fun part hp => (h part hp).inner

theorem put_loopDoc {form : Tree.LoopForm} {initializer condition update body : Node}
    (hshape : shape = .loop form initializer condition update body) :
    (loopDoc directives form (initializer, docs initializer) (condition, docs condition)
        (update, docs update) (body, docs body)).put =
      (loopDoc .empty form ((applied initializer).node, plain (applied initializer).node)
        ((applied condition).node, plain (applied condition).node)
        ((applied update).node, plain (applied update).node)
        ((applied body).embedded, plain (applied body).embedded)).put := by
  subst hshape
  have hinitializer := (h initializer (by simp)).inner
  have hcondition := (h condition (by simp)).inner
  have hupdate := (h update (by simp)).inner
  have hbody := h body (by simp)
  have hstart : (if initializer.isKind .variableList then docs initializer .declarations
      else docs initializer .expression).put = (if (applied initializer).node.isKind .variableList then
        plain (applied initializer).node .declarations
      else plain (applied initializer).node .expression).put := by
    rw [show (applied initializer).node.isKind .variableList = initializer.isKind .variableList from
      hinitializer.isList]
    split
    · exact hinitializer.docs .declarations rfl
    · exact hinitializer.docs .expression rfl
  cases form with
  | «for» =>
    simp only [loopDoc, put_append, hcondition.expressionAfter, hupdate.expressionAfter,
      Part.expression, hstart, hbody.embedded]
  | «while» => simp only [loopDoc, put_append, hcondition.expression, hbody.embedded]
  | doWhile => simp only [loopDoc, put_append, hcondition.expression, hbody.embedded, hbody.braced]

theorem put_statementDoc (hfull : ∀ statements, shape = .block statements → ∀ node ∈ statements, node.isPresent) :
    (statementDoc directives info (shape.map fun part => (part, docs part))).put =
      (statementDoc .empty info ((rebuild (shape.map applied)).map fun part => (part, plain part))).put := by
  rw [statementDoc, statementDoc, put_append, put_append]
  congr 1
  cases shape with
  | block statements => exact put_blockDoc h hfull
  | branch condition thenBranch elseBranch => exact put_ifDoc h
  | loop form initializer condition update body => exact put_loopDoc h rfl
  | evaluate expression =>
    simp only [Shape.map, rebuild, statementInside, put_append, (alike_parts h expression (by simp)).expression]
  | exit isThrow value =>
    simp only [Shape.map, rebuild, statementInside, put_append, (alike_parts h value (by simp)).expressionAfter]
  | «variables» isStatement lists =>
    cases isStatement with
    | false => rfl
    | true =>
      have hlists : (Doc.concat (lists.map fun list => docs list .declarations)).put =
          (Doc.concat (lists.map fun list => plain (applied list).node .declarations)).put :=
        put_concat_congr fun list hl => (alike_parts h list hl).docs .declarations rfl
      simp only [Shape.map, rebuild, statementInside, put_append, List.map_map, Function.comp_def,
        hlists]
  | function form name parameters body =>
    cases form with
    | declaration =>
      have hname := (alike_parts h name (by simp)).expression
      have hbody := (alike_parts h body (by simp)).docs .block rfl
      have hparameters : (Layout.parameters (parameters.map fun part => (part, docs part))).put =
          (Layout.parameters (parameters.map fun part => ((applied part).node, plain (applied part).node))).put := by
        simp only [Layout.parameters, put_append]
        rw [Alike.list (fun node hn => alike_parts h node (by simp [hn])) rfl]
      simp only [Shape.map, rebuild, statementInside, functionDoc, put_append, List.map_map, hname, hbody, hparameters,
        Function.comp_def]
    | _ => rfl
  | _ => rfl

omit h in
theorem kind_rebuild (applied : Node → Applied) : (rebuild (shape.map applied)).kind = shape.kind := by
  cases shape with
  | unary flag _ _ | call flag _ _ _ | access flag _ _ | collection flag _ | «variables» flag _
  | exit flag _ | literal flag _ _ _ => cases flag <;> rfl
  | function form _ _ _ | loop form _ _ _ _ => cases form <;> rfl
  | _ => rfl

omit h in
theorem nodeDoc_inner {arena : Arena} {nodes : NodeDocs} {parts : Shape Part} {role : Role}
    (hrole : role.isInner) (hvalue : ∀ value, directives.get? info.id ≠ some (.substitute value)) :
    nodeDoc arena directives nodes info parts role =
      nodeDoc .empty .empty (fun _ _ => .empty) info parts role := by
  cases role with
  | expression =>
    change nodeDoc.expression arena directives nodes info parts = expressionDoc info parts
    unfold nodeDoc.expression
    split
    · exact absurd ‹_› (hvalue _)
    · rfl
  | block | declarations | declaration | parameter => rfl
  | _ => cases hrole

theorem put_inner (hfull : ∀ statements, shape = .block statements → ∀ node ∈ statements, node.isPresent)
    {role : Role} (hrole : role.isInner) :
    (nodeDoc .empty .empty (fun _ _ => .empty) info (shape.map fun part => (part, docs part)) role).put =
      (plain (.mk info (rebuild (shape.map applied))) role).put := by
  have hmap : shape.holdsStatements = false ∨ (∃ form name parameters body,
      shape = .function form name parameters body) →
      (rebuild (shape.map applied)).map (fun part => (part, plain part)) =
        shape.map fun part => ((applied part).node, plain (applied part).node) := by
    rintro (hholds | ⟨form, name, parameters, body, rfl⟩)
    · rw [rebuild_map hholds, Shape.map_map]
      rfl
    · simp [Shape.map, rebuild]
  rw [plain_mk]
  cases role with
  | expression =>
    change (expressionDoc info _).put = (expressionDoc info _).put
    cases shape with
    | block | file | branch | loop => rfl
    | function form name parameters body =>
      rw [hmap (.inr ⟨_, _, _, _, rfl⟩)]
      exact put_expressionDoc (alike_parts h)
    | _ =>
      rw [hmap (.inl rfl)]
      exact put_expressionDoc (alike_parts h)
  | block => exact put_blockDoc h hfull
  | declarations =>
    change (declarationsDoc info _).put = (declarationsDoc info _).put
    cases shape with
    | «variables» isStatement declarations =>
      have hlist : (Part.list (declarations.map fun part => (part, docs part)) .declaration).put =
          (Part.list (declarations.map fun part => ((applied part).node, plain (applied part).node))
            .declaration).put := Alike.list (alike_parts h) rfl
      rw [hmap (.inl rfl)]
      simp only [declarationsDoc, Shape.map, put_append, hlist]
    | _ => rfl
  | declaration =>
    cases shape with
    | «variable» name value =>
      rw [hmap (.inl rfl)]
      change (bindingDoc _ _).put = (bindingDoc _ _).put
      simp only [bindingDoc, put_append, (alike_parts h name (by simp)).expression,
        (alike_parts h value (by simp)).expressionAfter]
    | _ => rfl
  | parameter =>
    cases shape with
    | parameter name value =>
      rw [hmap (.inl rfl)]
      change (bindingDoc _ _).put = (bindingDoc _ _).put
      simp only [bindingDoc, put_append, (alike_parts h name (by simp)).expression,
        (alike_parts h value (by simp)).expressionAfter]
    | _ => rfl
  | _ => cases hrole

end

/-- The directive of a node is of a kind that a lowering gives: a call gives way to its value, and
what is brought in are statements with values from inside the node. -/
def PlacedAt (directives : Directives) (info : Info) (shape : Shape Node) : Prop :=
  match directives.get? info.id with
  | none => True
  | some (.substitute value) => value.IsResult ∧ info.flags = {} ∧
    ∃ callee arguments, shape = .call false callee true arguments
  | some (.splice before replacement) => before ++ replacement.getD [] ≠ [] ∧
    ∀ code ∈ before ++ replacement.getD [], Code.Stands (fun source =>
      (∃ part ∈ shape.parts, source.Within part) ∧ Grammar.IsValue source) .statement code

def Placed (directives : Directives) (root : Node) : Prop :=
  ∀ info shape, Node.Within (.mk info shape) root → PlacedAt directives info shape

theorem Placed.within {directives : Directives} {node root : Node} (h : Placed directives root)
    (hw : node.Within root) : Placed directives node := fun info shape hin => h info shape (hin.trans hw)

def Full (root : Node) : Prop :=
  ∀ info statements, Node.Within (.mk info (.block statements)) root →
    ∀ node ∈ statements, node.isPresent

theorem Full.within {node root : Node} (h : Full root) (hw : node.Within root) : Full node :=
  fun info statements hin => h info statements (hin.trans hw)

section
variable {arena : Arena} {directives : Directives} {info : Info} {shape : Shape Node}

def innerNode (arena : Arena) (directives : Directives) : Nat → Node → Node
  | 0 => fun _ => .absent
  | count + 1 => fun node => (directives.applyTo arena count node).node

theorem applyTo_mk_eq (count : Nat) : directives.applyTo arena count (.mk info shape) =
    directives.applyNode arena (innerNode arena directives count) info
      (shape.map fun part => (part, directives.applyTo arena count part)) := by
  cases count <;> rw [Directives.applyTo, Node.fold_mk] <;> rfl

theorem applyTo_absent_eq (count : Nat) :
    directives.applyTo arena count .absent = ⟨.absent, [], .absent⟩ := by
  cases count <;> rfl

theorem printsApplied_absent (docs : NodeDocs) (hdocs : docs .absent = absentDoc) :
    PrintsApplied directives docs .absent ⟨.absent, [], .absent⟩ := by
  refine ⟨⟨rfl, rfl, fun _ => rfl, fun role _ => ?_⟩, ?_, nofun, ?_, ?_, rfl, rfl⟩
  · change (docs .absent role).put = _
    rw [hdocs]
    rfl
  all_goals
    rw [hdocs]
    rfl

section
variable {nodes : NodeDocs} {parts : Shape Part}

theorem nodeDoc_declarations :
    nodeDoc arena directives nodes info parts .declarations = declarationsDoc info parts := rfl

theorem nodeDoc_statement_kept (h : ∀ before replacement, directives.get? info.id ≠ some (.splice before replacement)) :
    nodeDoc arena directives nodes info parts .statement = statementDoc directives info parts := by
  change nodeDoc.statement directives nodes info parts = _
  unfold nodeDoc.statement
  split
  · exact absurd ‹_› (h _ _)
  · rfl

theorem nodeDoc_embedded_none (h : directives.get? info.id = none) :
    nodeDoc arena directives nodes info parts .embedded =
      if parts.kind == .block then .text " " ++ blockDoc parts
      else .line ++ .nest (statementDoc directives info parts) := by
  rw [← @nodeDoc_statement_kept arena directives info nodes parts (by simp [h])]
  change nodeDoc.embedded directives nodes info parts = _
  rw [nodeDoc.embedded, h]
  rfl

theorem nodeDoc_elseBranch_none (h : directives.get? info.id = none) :
    nodeDoc arena directives nodes info parts .elseBranch =
      if parts.kind == .ifStatement then .text " " ++ ifDoc directives parts
      else nodeDoc arena directives nodes info parts .embedded := by
  change (if parts.kind == .ifStatement && !directives.contains info.id then _ else _) = _
  simp only [Directives.contains, h, Option.isSome_none, Bool.not_false, Bool.and_true]
  rfl

end

variable {docs nodes : NodeDocs} {applied : Node → Applied}
  (h : ∀ part ∈ shape.parts, PrintsApplied directives docs part (applied part))
  (hfull : ∀ statements, shape = .block statements → ∀ node ∈ statements, node.isPresent)
  (hdocs : ∀ role, (docs (.mk info shape) role).put = (nodeDoc arena directives nodes info
    (shape.map fun part => (part, docs part)) role).put)
include h hfull hdocs

theorem alike_inside (hvalue : ∀ value, directives.get? info.id ≠ some (.substitute value)) :
    Alike (.mk info shape, docs (.mk info shape))
      (.mk info (rebuild (shape.map applied)), plain (.mk info (rebuild (shape.map applied)))) := by
  refine ⟨rfl, ?_, fun operator => ?_, fun role hrole => ?_⟩
  · simp only [Node.isKind, Node.kind?, kind_rebuild]
  · cases shape with
    | unary isTrailing inner operand => cases isTrailing <;> cases inner <;> rfl
    | _ => rfl
  · change (docs (.mk info shape) role).put = _
    rw [hdocs, nodeDoc_inner hrole hvalue]
    exact put_inner h hfull hrole

theorem printsApplied_none (hnone : directives.get? info.id = none) :
    PrintsApplied directives docs (.mk info shape)
      ⟨.mk info (rebuild (shape.map applied)), [.mk info (rebuild (shape.map applied))],
        .mk info (rebuild (shape.map applied))⟩ := by
  have hkind := @kind_rebuild shape applied
  have hempty : Directives.empty.get? info.id = none := rfl
  have hinside : (statementDoc directives info (shape.map fun part => (part, docs part))).put =
      (plain (.mk info (rebuild (shape.map applied))) .statement).put := by
    rw [plain_statement]
    exact put_statementDoc h hfull
  have hstatement : (docs (.mk info shape) .statement).put =
      (plain (.mk info (rebuild (shape.map applied))) .statement).put := by
    rw [hdocs, nodeDoc_statement_kept (by simp [hnone]), hinside]
  have hembedded : (docs (.mk info shape) .embedded).put =
      (plain (.mk info (rebuild (shape.map applied))) .embedded).put := by
    rw [hdocs, plain_mk, nodeDoc_embedded_none hnone, nodeDoc_embedded_none hempty]
    simp only [Shape.kind_map, hkind]
    split
    · rw [put_append, put_append, put_blockDoc h hfull]
    · rw [put_append, put_append, put_nest_congr (put_statementDoc h hfull)]
  have helse : (docs (.mk info shape) .elseBranch).put =
      (plain (.mk info (rebuild (shape.map applied))) .elseBranch).put := by
    rw [hdocs, plain_mk, nodeDoc_elseBranch_none hnone, nodeDoc_elseBranch_none hempty]
    simp only [Shape.kind_map, hkind]
    split
    · rw [put_append, put_append, put_ifDoc h]
    · rw [← hdocs, ← plain_mk, hembedded]
  refine ⟨alike_inside h hfull hdocs (by simp [hnone]), ?_, nofun, hembedded, helse, ?_, rfl⟩
  · simp only [List.map_cons, List.map_nil, put_concat_cons]
    rw [hstatement]
    exact joined_empty.symm
  · simp only [isBraced, hnone, hempty, hkind]

theorem printsApplied_splice {before : List Code} {replacement : Option (List Code)} {others : Node → Node}
    {made : Info} {items : List Node}
    (hitems : items = before.map (Code.node made others) ++ match replacement with
      | some codes => codes.map (Code.node made others)
      | none => [.mk info (rebuild (shape.map applied))])
    (hget : directives.get? info.id = some (.splice before replacement))
    (hcodes : ∀ code ∈ before ++ replacement.getD [],
      Code.PrintsAs nodes code (code.node made others) .statement)
    (hne : before ++ replacement.getD [] ≠ []) :
    PrintsApplied directives docs (.mk info shape)
      ⟨.mk info (rebuild (shape.map applied)), items, .mk made (.block items)⟩ := by
  have hempty : Directives.empty.get? made.id = none := rfl
  have hlines : ∀ codes, (∀ code ∈ codes, Code.PrintsAs nodes code (code.node made others) .statement) →
      (Code.statements nodes codes).put =
        (Doc.concat ((codes.map (Code.node made others)).map (plain · .statement))).put := by
    intro codes hall
    rw [Code.statements, Code.lines_eq_map, List.map_map]
    exact put_concat_congr hall
  rw [List.forall_mem_append] at hcodes
  have hstatement : (docs (.mk info shape) .statement).put =
      (Doc.concat (items.map (plain · .statement))).put := by
    rw [hdocs, hitems, List.map_append, put_concat_append, ← hlines before hcodes.1]
    change (nodeDoc.statement directives nodes info _).put = _
    simp only [nodeDoc.statement, hget, put_append, put_mark, empty_joined]
    congr 1
    cases replacement with
    | some codes => exact hlines codes hcodes.2
    | none =>
      simp only [List.map_cons, List.map_nil, put_concat_cons, plain_statement]
      rw [put_statementDoc h hfull]
      exact joined_empty.symm
  have hpresent : items ≠ [] := by
    rw [hitems]
    cases replacement with
    | none => simp
    | some codes => simpa using hne
  have hbraced : (docs (.mk info shape) .embedded).put = (plain (.mk made (.block items)) .embedded).put := by
    have htext : " \x7b" = " " ++ "\x7b" := rfl
    rw [plain_embedded_block, hdocs]
    change (nodeDoc.embedded directives nodes info _).put = _
    have hinside : (nodeDoc.statement directives nodes info (shape.map fun part => (part, docs part))).put =
        (Doc.concat (items.map (plain · .statement))).put := by
      rw [← hstatement, hdocs]
      rfl
    simp only [nodeDoc.embedded, hget, blockDoc, Doc.braced, List.map_map, Function.comp_def]
    rw [if_neg (by simpa using hpresent)]
    simp only [put_append, htext, put_text_append, joined_assoc, put_nest_congr hinside]
  refine ⟨alike_inside h hfull hdocs (by simp [hget]), hstatement, fun _ => hpresent, hbraced, ?_, ?_, rfl⟩
  · rw [plain_mk, nodeDoc_elseBranch_none hempty, hdocs]
    change (if _ && !directives.contains info.id then _ else nodeDoc.embedded directives nodes info _).put = _
    simp only [Directives.contains, hget, Option.isSome_some, Bool.not_true, Bool.and_false,
      Bool.false_eq_true, if_false]
    rw [if_neg (by simp [Shape.kind, Shape.map]), ← plain_mk, ← hbraced, hdocs]
    rfl
  · simp only [isBraced, hget]
    rfl

omit h hfull in
theorem alike_substitute {value : Code} {others : Node → Node} {callee : Node} {arguments : List Node}
    (hget : directives.get? info.id = some (.substitute value)) (hvalue : value.IsResult)
    (hflags : info.flags = {}) (hshape : shape = .call false callee true arguments) :
    let place := inPlace arena (Directives.made arena) info.id others value
    Alike (.mk info shape, docs (.mk info shape)) (place, plain place) := by
  intro place
  let made := Directives.made arena
  have hdoc : (Code.doc nodes value).put = (plain (value.node made others) .expression).put := by
    have hstands : Code.Stands (fun _ => False) .value value := by
      obtain rfl | ⟨text, htext, rfl⟩ := hvalue
      · exact .undefined
      · exact .ofOperand (.name htext)
    have hprints : Code.PrintsAs nodes value (value.node made others) .value :=
      Code.printsAs_of_stands hstands rfl nofun
    obtain rfl | ⟨text, -, rfl⟩ := hvalue
    · exact hprints.1
    · exact hprints.1
  have hplace : (substituted arena nodes info.id value).put = (plain place .expression).put := by
    unfold substituted place inPlace
    split
    · rw [plain_expression]
      change _ = (Doc.text "(" ++ plain (value.node made others) .expression ++ .text ")").put
      simp only [put_append, hdoc]
    · exact hdoc
  have hforms : (∃ text, place = .mk made (.identifier text)) ∨
      (∃ operand, place = .mk made (.unary false (some .voidWord) operand)) ∨
      ∃ inner, place = .mk made (.parenthesized inner) := by
    unfold place inPlace
    split
    · exact .inr (.inr ⟨_, rfl⟩)
    · obtain rfl | ⟨text, -, rfl⟩ := hvalue
      · exact .inr (.inl ⟨_, rfl⟩)
      · exact .inl ⟨_, rfl⟩
  have hwords : ∀ parts : Shape Part, (∀ isList nodes, parts ≠ .variables isList nodes) →
      ∀ info : Info, info.flags = {} → declarationsDoc info parts = .text "var " ++ .empty := by
    intro parts hparts info hflags
    cases parts with
    | «variables» isList nodes => exact absurd rfl (hparts isList nodes)
    | _ =>
      simp only [declarationsDoc, hflags]
      rfl
  -- In all other roles neither the call nor what stands in its place is printed.
  have hothers : ∀ role, role.isInner → role ≠ .expression →
      (docs (.mk info shape) role).put = (plain place role).put := by
    intro role hrole hne
    rw [hdocs, hshape]
    cases role with
    | expression => exact absurd rfl hne
    | declarations =>
      rw [nodeDoc_declarations, hwords _ (by simp [Shape.map]) info hflags]
      obtain ⟨_, heq⟩ | ⟨_, heq⟩ | ⟨_, heq⟩ := hforms <;>
        rw [heq, plain_declarations, hwords _ (by simp [Shape.map]) made rfl]
    | block | declaration | parameter =>
      obtain ⟨_, heq⟩ | ⟨_, heq⟩ | ⟨_, heq⟩ := hforms <;> rw [heq, plain_mk] <;> rfl
    | _ => cases hrole
  refine ⟨?_, ?_, fun operator => ?_, fun role hrole => ?_⟩
  · obtain ⟨_, heq⟩ | ⟨_, heq⟩ | ⟨_, heq⟩ := hforms <;> rw [heq] <;> rfl
  · rw [hshape]
    obtain ⟨_, heq⟩ | ⟨_, heq⟩ | ⟨_, heq⟩ := hforms <;> rw [heq] <;> rfl
  · rw [hshape]
    have hvoid : ∀ operand, wouldFuse operator (.mk made (.unary false (some .voidWord) operand)) = false := by
      intro operand
      cases operator <;> rfl
    have hcall : wouldFuse operator (.mk info (.call false callee true arguments)) = false := by
      simp [wouldFuse]
    rw [hcall]
    obtain ⟨_, heq⟩ | ⟨_, heq⟩ | ⟨_, heq⟩ := hforms
    · rw [heq]
      simp [wouldFuse]
    · rw [heq]
      exact hvoid _
    · rw [heq]
      simp [wouldFuse]
  · by_cases hexpression : role = .expression
    · subst hexpression
      change (docs (.mk info shape) .expression).put = _
      rw [hdocs]
      change (nodeDoc.expression arena directives nodes info _).put = _
      simp only [nodeDoc.expression, hget, put_append, put_mark, empty_joined]
      exact hplace
    · exact hothers role hrole hexpression

theorem printsApplied_substitute {value : Code} {others : Node → Node} {callee : Node} {arguments : List Node}
    (hget : directives.get? info.id = some (.substitute value)) (hvalue : value.IsResult)
    (hflags : info.flags = {}) (hshape : shape = .call false callee true arguments) :
    PrintsApplied directives docs (.mk info shape)
      ⟨inPlace arena (Directives.made arena) info.id others value, [.mk info (rebuild (shape.map applied))],
        .mk info (rebuild (shape.map applied))⟩ := by
  have hempty : Directives.empty.get? info.id = none := rfl
  have hkind : (rebuild (shape.map applied)).kind = .call := by
    rw [kind_rebuild, hshape]
    rfl
  have hstatement : (docs (.mk info shape) .statement).put =
      (plain (.mk info (rebuild (shape.map applied))) .statement).put := by
    rw [hdocs, nodeDoc_statement_kept (by simp [hget]), plain_statement]
    exact put_statementDoc h hfull
  have hembedded : (docs (.mk info shape) .embedded).put =
      (plain (.mk info (rebuild (shape.map applied))) .embedded).put := by
    rw [plain_mk, nodeDoc_embedded_none hempty, hdocs]
    change (nodeDoc.embedded directives nodes info _).put = _
    simp only [nodeDoc.embedded, hget, Shape.kind_map, hkind]
    rw [if_neg (by decide), put_append, put_append]
    rw [hdocs, plain_statement] at hstatement
    exact congrArg (joined _) (put_nest_congr hstatement)
  refine ⟨alike_substitute hdocs hget hvalue hflags hshape, ?_, by simp, hembedded, ?_, ?_, rfl⟩
  · simp only [List.map_cons, List.map_nil, put_concat_cons]
    rw [hstatement]
    exact joined_empty.symm
  · rw [plain_mk, nodeDoc_elseBranch_none hempty, Shape.kind_map, hkind, if_neg (by decide), ← plain_mk,
      ← hembedded, hdocs]
    change (if _ && !directives.contains info.id then _ else nodeDoc.embedded directives nodes info _).put = _
    simp only [Directives.contains, hget, Option.isSome_some, Bool.not_true, Bool.and_false,
      Bool.false_eq_true, if_false]
    exact (hdocs .embedded).symm
  · simp only [isBraced, hget, hempty, hkind]
    rfl

end

section
variable {arena : Arena} {directives : Directives}

theorem need_inside {info : Info} {shape : Shape Node} {count : Nat} (h : (directives.get? info.id).isSome)
    (hcount : need directives (.mk info shape) ≤ count) :
    ∃ less, count = less + 1 ∧
      ∀ part ∈ shape.parts, ∀ source, source.Within part → need directives source ≤ less := by
  have hpos : need directives (.mk info shape) ≠ 0 := need_pos h
  obtain ⟨less, rfl⟩ : ∃ less, count = less + 1 := Nat.exists_eq_add_one.mpr (by omega)
  exact ⟨less, rfl, fun part hp source hw => (need_within hw).trans (need_directed h hcount part hp)⟩

/-- Everything in a tree with proper directives is printed as what it becomes. -/
theorem printsApplied_within {root : Node} (hplaced : Placed directives root) (hfull : Full root) :
    ∀ node, node.Within root → ∀ count more, need directives node ≤ count → need directives node ≤ more →
      PrintsApplied directives (nodeDocs arena directives count) node
        (directives.applyTo arena more node) := by
  -- What a directive brings in lies inside the parts of its node, so all of these come first.
  induction root with
  | absent =>
    intro node hw count more _ _
    cases hw
    rw [applyTo_absent_eq]
    exact printsApplied_absent _ (nodeDocs_absent count)
  | mk info shape ih =>
    have hinside : ∀ part ∈ shape.parts, ∀ node, node.Within part → ∀ count more,
        need directives node ≤ count → need directives node ≤ more →
        PrintsApplied directives (nodeDocs arena directives count) node
          (directives.applyTo arena more node) := fun part hp =>
      ih part hp (hplaced.within (.part hp .self)) (hfull.within (.part hp .self))
    intro node hw count more hcount hmore
    cases hw with
    | part hp hw => exact hinside _ hp node hw count more hcount hmore
    | self =>
      have hparts : ∀ part ∈ shape.parts, PrintsApplied directives (nodeDocs arena directives count) part
          (directives.applyTo arena more part) := fun part hp =>
        hinside part hp part .self count more (need_parts hcount part hp) (need_parts hmore part hp)
      have hblock : ∀ statements, shape = .block statements → ∀ node ∈ statements, node.isPresent :=
        fun statements heq => hfull info statements (heq ▸ .self)
      have hdocs : ∀ role, (nodeDocs arena directives count (.mk info shape) role).put = _ := fun role =>
        congrArg (fun docs => (docs role).put) (nodeDocs_mk count)
      have hat := hplaced info shape .self
      rw [applyTo_mk_eq, Directives.applyNode]
      simp only [Shape.map_map, Function.comp_def]
      unfold PlacedAt at hat
      cases hget : directives.get? info.id with
      | none => exact printsApplied_none hparts hblock hdocs hget
      | some directive =>
        rw [hget] at hat
        cases directive with
        | substitute value =>
          obtain ⟨hvalue, hflags, callee, arguments, hshape⟩ := hat
          exact printsApplied_substitute hparts hblock hdocs hget hvalue hflags hshape
        | splice before replacement =>
          obtain ⟨hne, hstands⟩ := hat
          refine printsApplied_splice hparts hblock hdocs rfl hget (fun code hcode => ?_) hne
          refine Code.printsAs_of_stands (hstands code hcode) rfl ?_
          rintro source ⟨⟨part, hp, hw⟩, hvalue⟩
          have hsome : (directives.get? info.id).isSome := by rw [hget]; rfl
          obtain ⟨count, rfl, hless⟩ := need_inside hsome hcount
          obtain ⟨more, rfl, hlessMore⟩ := need_inside hsome hmore
          have hsource := hinside part hp source hw count more (hless part hp source hw)
            (hlessMore part hp source hw)
          refine ⟨hsource.inner.expression, ?_⟩
          have hpresent := hsource.inner.present
          exact hpresent.trans hvalue.isPresent

/-- The text of a file with proper directives is that of the file that they make. -/
theorem print_apply {info : Info} {name : String} {statements : List Node}
    (hplaced : Placed directives (.mk info (.file name statements)))
    (hfull : Full (.mk info (.file name statements)))
    (hnone : directives.get? info.id = none)
    (hsize : need directives (.mk info (.file name statements)) ≤ directives.size)
    (harena : need directives (.mk info (.file name statements)) ≤ arena.size) :
    print arena directives (.mk info (.file name statements)) =
      print arena .empty (directives.apply arena (.mk info (.file name statements))) := by
  have hparts : ∀ part ∈ statements, PrintsApplied directives (nodeDocs arena directives directives.size)
      part (directives.applyTo arena arena.size part) := fun part hp =>
    printsApplied_within hplaced hfull part (.part hp .self) _ _ (need_parts hsize part hp)
      (need_parts harena part hp)
  have happly : directives.apply arena (.mk info (.file name statements)) =
      .mk info (.file name (statements.flatMap fun part => (directives.applyTo arena arena.size part).items)) := by
    rw [Directives.apply, applyTo_mk_eq, Directives.applyNode, hnone]
    simp [Shape.map, rebuild, List.flatMap_map]
  rw [happly, print_empty, plain_file, print, docs, nodeDocs_mk, Doc.render_eq, Doc.render_eq]
  have hput := put_concat_statements hparts
  have hwhole : nodeDoc arena directives (inner arena directives directives.size) info
      ((Shape.file name statements).map fun part =>
        (part, nodeDocs arena directives directives.size part)) .whole =
      .concat (statements.map (nodeDocs arena directives directives.size · .statement)) := by
    simp only [Shape.map]
    change Doc.concat _ = _
    rw [List.map_map]
    rfl
  rw [put_node, hwhole, hput]

end

end ArrayLoops.Layout
