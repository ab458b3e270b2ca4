import ArrayLoops.Proofs.LoopCode
import ArrayLoops.Proofs.Printed

/-!
# Forms of generated code

The code of loops has few forms, and each of them is a phrase as a tree. Source nodes stand in it
only where they are put into variables.
-/

namespace ArrayLoops.Lowering

open Grammar (Leaf Level Phrase firstKind? isBinding isMemberName words)
open Layout (PointsApart isDigits pointsApart_mk pointsApart_absent)
open Token (Kind Word)
open ArrayLoops.Tree (Arena Info Node NodeId Shape)

structure IsName (text : String) : Prop where
  free : Kind.ofWord? text = none
  genuine : Word.Genuine ⟨.identifier, text, text⟩

theorem isName_of_chars {c : Char} {cs : List Char} (hfree : Kind.ofWord? (String.ofList (c :: cs)) = none)
    (hc : Text.isNameStart c) (hcs : ∀ c ∈ cs, Text.isNamePart c) :
    IsName (String.ofList (c :: cs)) := by
  have hgenuine := Word.Genuine.name hc hcs
  rw [hfree] at hgenuine
  exact ⟨hfree, hgenuine⟩

theorem ofWord?_underscore (cs : List Char) : Kind.ofWord? (String.ofList ('_' :: cs)) = none := by
  have hhead : ∀ kind ∈ Kind.reservedWords, kind.spelling.toList.head? ≠ some '_' := by decide
  refine List.find?_eq_none.mpr fun kind hkind hsame => hhead kind hkind ?_
  rw [beq_iff_eq.mp hsame, String.toList_ofList]
  rfl

theorem Names.isName_candidate {hint : String} (h : ∀ c ∈ hint.toList, Text.isNamePart c) (i : Nat) :
    IsName (candidate hint i) := by
  have hchars : ∃ cs, candidate hint i = String.ofList ('_' :: cs) ∧ ∀ c ∈ cs, Text.isNamePart c := by
    unfold candidate
    split
    · exact ⟨hint.toList, by simp, h⟩
    · refine ⟨hint.toList ++ (toString (i + 1)).toList, String.toList_inj.mp (by simp), fun c hc => ?_⟩
      obtain hc | hc := List.mem_append.mp hc
      · exact h c hc
      · rw [Nat.toString_eq_repr, Nat.toList_repr] at hc
        exact Token.isNamePart_of_isHexDigit (Token.isHexDigit_of_isDigit
          (Nat.isDigit_of_mem_toDigits (by decide) (by decide) hc))
  obtain ⟨cs, hcandidate, hcs⟩ := hchars
  rw [hcandidate]
  exact isName_of_chars (ofWord?_underscore cs) (by decide) hcs

theorem Names.isName_freshAll {hints : List String}
    (h : ∀ hint ∈ hints, ∀ c ∈ hint.toList, Text.isNamePart c) (names : Names) :
    ∀ name ∈ (names.freshAll hints).1, IsName name := by
  induction hints generalizing names with
  | nil => nofun
  | cons hint hints ih =>
    rw [List.forall_mem_cons] at h
    refine List.forall_mem_cons.mpr ⟨?_, ih h.2 _⟩
    obtain ⟨i, hi⟩ := names.fresh_eq_candidate hint
    rw [hi]
    exact isName_candidate h.1 i

namespace Code

inductive Place where
  | operand
  | value
  | statement
  deriving DecidableEq, Repr

/-- The code has a form for the place. The source nodes in it are as `P` says. -/
inductive Stands (P : Node → Prop) : Place → Code → Prop where
  | number {text : String} : text = "0" ∨ text = "1" → Stands P .operand (.number text)
  | string : Stands P .operand (.string emptyReduceMessage)
  | boolean {value : Bool} : Stands P .operand (.boolean value)
  | name {text : String} : IsName text → Stands P .operand (.name text)
  | member {object property : String} : IsName object → IsName property →
    Operation.ofName? property = none → Stands P .operand (.member (.name object) property)
  | element {object : String} {index : Code} : IsName object → Stands P .operand index →
    Stands P .operand (.element (.name object) index)
  | call {callee : Code} {arguments : List Code} : Stands P .operand callee →
    (∀ argument ∈ arguments, Stands P .operand argument) → Stands P .operand (.call callee arguments)
  | new {callee : String} {arguments : List Code} : IsName callee →
    (∀ argument ∈ arguments, Stands P .operand argument) →
    Stands P .operand (.new (.name callee) arguments)
  | array : Stands P .operand (.array [])
  | ofOperand {code : Code} : Stands P .operand code → Stands P .value code
  | undefined : Stands P .value .undefined
  | compare {left right : Code} {operator : String} : Stands P .operand left →
    operator = "<" ∨ operator = "===" → Stands P .operand right →
    Stands P .value (.binary left operator right)
  | not {operand : Code} : Stands P .operand operand → Stands P .value (.not operand)
  | increment {text : String} : IsName text → Stands P .value (.postfixed (.name text) "++")
  | declare {text : String} : IsName text → Stands P .statement (.declare text none)
  | initial {text : String} {value : Code} : IsName text → Stands P .value value →
    Stands P .statement (.declare text (some value))
  | capture {text : String} {node : Node} : IsName text → P node →
    Stands P .statement (.declare text (some (.source node)))
  | assign {text : String} {value : Code} : IsName text → Stands P .value value →
    Stands P .statement (.evaluate (.assign (.name text) value))
  | evaluate {code : Code} : Stands P .operand code → Stands P .statement (.evaluate code)
  | when {condition : Code} {statements : List Code} : Stands P .value condition →
    (∀ code ∈ statements, Stands P .statement code) → Stands P .statement (.when condition statements)
  | loop {condition update : Code} {statements : List Code} : Stands P .value condition →
    Stands P .value update → (∀ code ∈ statements, Stands P .statement code) →
    Stands P .statement (.loop none (some condition) (some update) (.block statements))
  | throw {value : Code} : Stands P .value value → Stands P .statement (.throw value)
  | break : Stands P .statement .break

theorem Stands.mono {P Q : Node → Prop} {place : Place} {code : Code} (h : Stands P place code)
    (hpq : ∀ node, P node → Q node) : Stands Q place code := by
  induction h with
  | number htext => exact .number htext
  | string => exact .string
  | boolean => exact .boolean
  | name htext => exact .name htext
  | member hobject hproperty hother => exact .member hobject hproperty hother
  | element hobject _ ih => exact .element hobject ih
  | call _ _ ih ihArguments => exact .call ih ihArguments
  | new hcallee _ ih => exact .new hcallee ih
  | array => exact .array
  | ofOperand _ ih => exact .ofOperand ih
  | undefined => exact .undefined
  | compare _ hoperator _ ihLeft ihRight => exact .compare ihLeft hoperator ihRight
  | not _ ih => exact .not ih
  | increment htext => exact .increment htext
  | declare htext => exact .declare htext
  | initial htext _ ih => exact .initial htext ih
  | capture htext hnode => exact .capture htext (hpq _ hnode)
  | assign htext _ ih => exact .assign htext ih
  | evaluate _ ih => exact .evaluate ih
  | when _ _ ih ihStatements => exact .when ih ihStatements
  | loop _ _ _ ih ihUpdate ihStatements => exact .loop ih ihUpdate ihStatements
  | throw _ ih => exact .throw ih
  | «break» => exact .break

end Code

theorem isName_length : IsName "length" :=
  isName_of_chars (by decide) (by decide) (List.all_eq_true.mp rfl)

theorem isName_call : IsName "call" :=
  isName_of_chars (by decide) (by decide) (List.all_eq_true.mp rfl)

theorem isName_push : IsName "push" :=
  isName_of_chars (by decide) (by decide) (List.all_eq_true.mp rfl)

theorem isName_typeError : IsName "TypeError" :=
  isName_of_chars (by decide) (by decide) (List.all_eq_true.mp rfl)

namespace Skeleton

open Code (Stands)

attribute [local simp] Bindings.names

structure IsSound (P : Node → Prop) (s : Skeleton) : Prop where
  names : ∀ name ∈ s.bindings.names, IsName name
  array : ∃ node, P node ∧ s.array = .source node
  callback : ∃ node, P node ∧ s.callback = .source node
  this : ∀ code ∈ s.this, ∃ node, P node ∧ code = .source node
  beforeLoop : ∀ code ∈ s.beforeLoop, Stands P .statement code
  beforeCall : ∀ code ∈ s.beforeCall, Stands P .statement code
  call : ∀ code ∈ s.call, Stands P .statement code
  afterCall : ∀ code ∈ s.afterCall, Stands P .statement code
  afterLoop : ∀ code ∈ s.afterLoop, Stands P .statement code

section
variable {P : Node → Prop} {s : Skeleton} (h : ∀ name ∈ s.bindings.names, IsName name)
include h

theorem stands_arrayName : Stands P .operand s.arrayName := .name (h _ (by simp))

theorem stands_indexName : Stands P .operand s.indexName := .name (h _ (by simp))

theorem stands_currentElement : Stands P .operand s.currentElement :=
  .element (h _ (by simp)) (stands_indexName h)

theorem stands_invoke {arguments : List Code}
    (ha : ∀ argument ∈ arguments, Stands P .operand argument) :
    Stands P .operand (s.invoke arguments) := by
  have hcallback : IsName s.bindings.callback := h _ (by simp)
  unfold invoke
  split
  · rename_i this hthis
    refine .call (.member hcallback isName_call (by decide)) (List.forall_mem_cons.mpr ⟨.name ?_, ha⟩)
    exact h this (by simp [hthis])
  · exact .call (.name hcallback) ha

end

theorem IsSound.build {P : Node → Prop} {s : Skeleton} (h : s.IsSound P) {statements : List Code}
    (hbuild : s.build = .ok statements) : ∀ code ∈ statements, Stands P .statement code := by
  unfold Skeleton.build at hbuild
  split at hbuild
  · cases hbuild
  · rename_i call hcall
    obtain ⟨array, hreceiver, harray⟩ := h.array
    obtain ⟨callback, hfunction, hcallback⟩ := h.callback
    have hindex : IsName s.bindings.index := h.names _ (by simp)
    have hthis : ∀ code ∈ s.declareThis, Stands P .statement code := by
      unfold declareThis
      split
      · rename_i name value hname hvalue
        obtain ⟨node, hnode, rfl⟩ := h.this value hvalue
        refine List.forall_mem_singleton.mpr (.capture (h.names name ?_) hnode)
        simp [hname]
      · exact List.forall_mem_nil _
    have hinside : ∀ code ∈ s.beforeCall ++ call :: s.afterCall, Stands P .statement code :=
      List.forall_mem_append.mpr ⟨h.beforeCall,
        List.forall_mem_cons.mpr ⟨h.call call hcall, h.afterCall⟩⟩
    have hloop : Stands P .statement (s.loop call) :=
      .loop (.compare (stands_indexName h.names) (.inl rfl)
          (.member (h.names _ (by simp)) isName_length (by decide)))
        (.increment hindex) hinside
    cases hbuild
    rw [harray, hcallback]
    simp only [List.forall_mem_append, List.forall_mem_cons, List.cons_append]
    refine ⟨.capture (h.names _ (by simp)) hreceiver, .initial hindex (.ofOperand (.number (.inl rfl))),
      .capture (h.names _ (by simp)) hfunction, ⟨?_, h.beforeLoop⟩, hloop, h.afterLoop⟩
    simpa using hthis

end Skeleton

def Code.IsResult (value : Code) : Prop := value = .undefined ∨ ∃ text, IsName text ∧ value = .name text

section
variable {P : Node → Prop} {s : Skeleton} {names : ElementNames} (h : ∀ name ∈ s.bindings.names, IsName name)
  (helement : IsName names.element) (hresult : IsName names.result)
include h helement hresult

theorem ElementNames.stands_declarations :
    ∀ code ∈ names.declarations s, Code.Stands P .statement code := by
  simp only [declarations, List.forall_mem_cons]
  exact ⟨.initial helement (.ofOperand (Skeleton.stands_currentElement h)), .declare hresult, by simp⟩

omit h helement in
theorem ElementNames.stands_keep {call : Code} (hcall : Code.Stands P .operand call) :
    Code.Stands P .statement (names.keep call) := .assign hresult (.ofOperand hcall)

omit h in
theorem stands_collecting {result : String} (hr : IsName result) (operation : Operation) :
    (∀ code ∈ (collecting operation names result).1, Code.Stands P .statement code) ∧
      ∀ code ∈ (collecting operation names result).2, Code.Stands P .statement code := by
  have hpush : ∀ {text}, IsName text → Code.Stands P .statement (pushTo result (.name text)) :=
    fun htext => .evaluate (.call (.member hr isName_push (by decide)) (List.forall_mem_singleton.mpr (.name htext)))
  have hsettle : ∀ value, ∀ code ∈ settle result value, Code.Stands P .statement code := by
    intro value
    simp only [settle, List.forall_mem_cons]
    exact ⟨.assign hr (.ofOperand .boolean), .break, by simp⟩
  have houtcome : Code.Stands P .operand (.name names.result) := .name hresult
  cases operation with
  | forEach | reduce => exact ⟨by rintro _ ⟨⟩, by rintro _ ⟨⟩⟩
  | map =>
    simp only [collecting, List.forall_mem_singleton]
    exact ⟨.initial hr (.ofOperand .array), hpush hresult⟩
  | filter =>
    simp only [collecting, List.forall_mem_singleton]
    exact ⟨.initial hr (.ofOperand .array),
      .when (.ofOperand houtcome) (List.forall_mem_singleton.mpr (hpush helement))⟩
  | every =>
    simp only [collecting, List.forall_mem_singleton]
    exact ⟨.initial hr (.ofOperand .boolean), .when (.not houtcome) (hsettle false)⟩
  | some =>
    simp only [collecting, List.forall_mem_singleton]
    exact ⟨.initial hr (.ofOperand .boolean), .when (.ofOperand houtcome) (hsettle true)⟩

end

theorem stands_startAccumulator {P : Node → Prop} {s : Skeleton} (h : ∀ name ∈ s.bindings.names, IsName name)
    {accumulator : String} (ha : IsName accumulator) {initial : Option Node} (hinitial : ∀ node ∈ initial, P node) :
    ∀ code ∈ startAccumulator s accumulator initial, Code.Stands P .statement code := by
  have harray : IsName s.bindings.array := h _ (by simp [Bindings.names])
  have hzero : Code.Stands P .operand (.number "0") := .number (.inl rfl)
  cases initial with
  | some node => exact List.forall_mem_singleton.mpr (.capture ha (hinitial node rfl))
  | none =>
    have hthrow : Code.Stands P .statement (.throw (.new (.name "TypeError") [.string emptyReduceMessage])) :=
      .throw (.ofOperand (.new isName_typeError (List.forall_mem_singleton.mpr .string)))
    simp only [startAccumulator, List.forall_mem_cons]
    exact ⟨.when (.compare (.member harray isName_length (by decide)) (.inr rfl) hzero)
        (List.forall_mem_singleton.mpr hthrow),
      .initial ha (.ofOperand (.element harray hzero)),
      .assign (h _ (by simp [Bindings.names])) (.ofOperand (.number (.inr rfl))), by simp⟩

namespace CallSite

variable {site : CallSite} {bindings : Bindings} {given : List String} {filled : Skeleton × Code}

theorem Fills.isSound (h : site.Fills bindings given filled) (hnames : ∀ name ∈ given, IsName name) :
    filled.1.IsSound (· ∈ site.parts) ∧ filled.2.IsResult := by
  have hreceiver : site.receiver ∈ site.parts := by simp [CallSite.parts]
  have hcallback : site.callback ∈ site.parts := by simp [CallSite.parts]
  have hextra : ∀ node ∈ site.extra, node ∈ site.parts := by
    intro node hnode
    simp [CallSite.parts, Option.mem_def.mp hnode]
  have hthis : ∀ code ∈ (site.skeleton bindings).this, ∃ node ∈ site.parts, code = .source node := by
    intro code hcode
    simp only [skeleton] at hcode
    split at hcode
    · obtain ⟨node, hnode, rfl⟩ := Option.map_eq_some_iff.mp hcode
      exact ⟨node, hextra node hnode, rfl⟩
    · cases hcode
  cases h with
  | visiting =>
    have hbindings : ∀ name ∈ (site.skeleton bindings).bindings.names, IsName name := hnames
    refine ⟨⟨hnames, ⟨_, hreceiver, rfl⟩, ⟨_, hcallback, rfl⟩, hthis, by rintro _ ⟨⟩,
      by rintro _ ⟨⟩, ?_, by rintro _ ⟨⟩, by rintro _ ⟨⟩⟩, .inl rfl⟩
    rintro code ⟨⟩
    refine .evaluate (Skeleton.stands_invoke hbindings ?_)
    simp only [List.forall_mem_cons]
    exact ⟨Skeleton.stands_currentElement hbindings, Skeleton.stands_indexName hbindings,
      Skeleton.stands_arrayName hbindings, by simp⟩
  | reducing names accumulator =>
    rw [List.forall_mem_append] at hnames
    have hbindings : ∀ name ∈ (site.skeleton bindings).bindings.names, IsName name := hnames.1
    have helement : IsName names.element := hnames.2 _ (by simp)
    have hresult : IsName names.result := hnames.2 _ (by simp)
    have haccumulator : IsName accumulator := hnames.2 _ (by simp)
    refine ⟨⟨hnames.1, ⟨_, hreceiver, rfl⟩, ⟨_, hcallback, rfl⟩, hthis, ?_, ?_, ?_, ?_,
      by rintro _ ⟨⟩⟩, .inr ⟨_, haccumulator, rfl⟩⟩
    · exact stands_startAccumulator hbindings haccumulator hextra
    · exact ElementNames.stands_declarations hbindings helement hresult
    · rintro code ⟨⟩
      refine ElementNames.stands_keep hresult (Skeleton.stands_invoke hbindings ?_)
      simp only [List.forall_mem_cons]
      exact ⟨.name haccumulator, .name helement, Skeleton.stands_indexName hbindings,
        Skeleton.stands_arrayName hbindings, by simp⟩
    · exact List.forall_mem_singleton.mpr (.assign haccumulator (.ofOperand (.name hresult)))
  | gathering names result =>
    rw [List.forall_mem_append] at hnames
    have hbindings : ∀ name ∈ (site.skeleton bindings).bindings.names, IsName name := hnames.1
    have helement : IsName names.element := hnames.2 _ (by simp)
    have hresult : IsName names.result := hnames.2 _ (by simp)
    have hcollected : IsName result := hnames.2 _ (by simp)
    have hcollecting := @stands_collecting (· ∈ site.parts) names helement hresult result hcollected
      site.operation
    refine ⟨⟨hnames.1, ⟨_, hreceiver, rfl⟩, ⟨_, hcallback, rfl⟩, hthis, hcollecting.1, ?_, ?_,
      hcollecting.2, by rintro _ ⟨⟩⟩,
      .inr ⟨_, hcollected, rfl⟩⟩
    · exact ElementNames.stands_declarations hbindings helement hresult
    · rintro code ⟨⟩
      refine ElementNames.stands_keep hresult (Skeleton.stands_invoke hbindings ?_)
      simp only [List.forall_mem_cons]
      exact ⟨.name helement, Skeleton.stands_indexName hbindings,
        Skeleton.stands_arrayName hbindings, by simp⟩

theorem stands_loweredWith (site : CallSite) (names : Names) :
    (∀ code ∈ (site.loweredWith names).statements, Code.Stands (· ∈ site.parts) .statement code) ∧
      (site.loweredWith names).value.IsResult := by
  obtain ⟨bindings, given, hints, hthis, hfills, hfresh, hhints⟩ := fill_fills site names
  have hnames : ∀ name ∈ given, IsName name := by
    have hall := names.isName_freshAll hhints
    rwa [hfresh] at hall
  obtain ⟨extra, rest, hbuild, -⟩ := hfills.build_eq hthis
  have hstatements : (site.loweredWith names).statements =
      (((fill site).run names).1.1.build.toOption).getD [] := rfl
  obtain ⟨hsound, hresult⟩ := hfills.isSound hnames
  refine ⟨?_, hresult⟩
  rw [hstatements, hbuild]
  exact hsound.build hbuild

end CallSite

theorem firstKind?_of_append {node first : Node} {behind : List Grammar.Spelling}
    (h : words node = words first ++ behind) (hne : words first ≠ []) :
    firstKind? node = firstKind? first := by
  rw [firstKind?, h, Grammar.head?_append_left hne]
  rfl

structure IsOperand (node : Node) : Prop where
  phrase : ∀ depth, ∃ links, Phrase false (.member true links) depth node
  closed : Grammar.isOpenNew node = false
  first : firstKind? node ≠ some .openBrace ∧ firstKind? node ≠ some .functionWord

namespace IsOperand

variable {node : Node} {id pos fin : Nat}

theorem of_head (h : ∀ depth, Phrase false .head depth node) (hclosed : Grammar.isOpenNew node = false)
    (hfirst : ∃ kind, firstKind? node = some kind ∧ kind ≠ .openBrace ∧ kind ≠ .functionWord) :
    IsOperand node := by
  obtain ⟨kind, hkind, hbrace, hfunction⟩ := hfirst
  exact ⟨fun depth => ⟨0, .ofHead (h depth)⟩, hclosed, by simpa [hkind], by simpa [hkind]⟩

theorem of_leaf (h : Leaf Grammar.isOperand node) : IsOperand node := by
  obtain ⟨word, hwords, hkind, -⟩ := h.words_eq
  refine of_head (fun _ => .leaf h) (by cases h <;> rfl) ⟨word.kind, ?_, ?_, ?_⟩
  · simp [firstKind?, hwords, Grammar.Spelling.kind]
  · intro heq
    rw [heq] at hkind
    cases hkind
  · intro heq
    rw [heq] at hkind
    cases hkind

theorem of_chain {object : Node} {behind : List Grammar.Spelling} (hobject : IsOperand object)
    (hwords : words node = words object ++ behind) (hclosed : Grammar.isOpenNew node = false)
    (h : ∀ depth, ∃ links, Phrase false (.member true links) depth node) : IsOperand node := by
  obtain ⟨links, hphrase⟩ := hobject.phrase 0
  have hfirst := firstKind?_of_append hwords hphrase.words_ne_nil
  exact ⟨h, hclosed, hfirst ▸ hobject.first⟩

theorem value (h : IsOperand node) (depth : Nat) : Phrase false .assignment depth node := by
  obtain ⟨links, hphrase⟩ := h.phrase (depth + 1)
  exact .ofBinary nofun (.ofUnary (.ofOperand (.ofMember hphrase)))

end IsOperand

theorem IsName.leaf {text : String} (h : IsName text) {kinds : Kind → Bool}
    (hkinds : kinds .identifier) {id pos fin : Nat} :
    Leaf kinds (.mk ⟨id, pos, fin, {}⟩ (.identifier text)) := by
  have hkind : (Kind.ofWord? text).getD .identifier = .identifier := by rw [h.free]; rfl
  exact .name (by rwa [hkind]) (by rw [hkind]; exact h.genuine)

theorem IsName.operand {text : String} (h : IsName text) {id pos fin : Nat} :
    IsOperand (.mk ⟨id, pos, fin, {}⟩ (.identifier text)) := .of_leaf (h.leaf rfl)

theorem genuine_emptyReduceMessage :
    Word.Genuine ⟨.string, emptyReduceMessage, Layout.quoted emptyReduceMessage⟩ := by
  have hclosed : Token.Closed '"' emptyReduceMessage.toList := by
    intro rest
    rfl
  have hcooked : (Token.Cooking.ofBody 0 emptyReduceMessage.toList).complaints = [] := by decide
  exact Word.Genuine.string (.inl rfl) hclosed hcooked

namespace Code

theorem nodeList_eq_map (info : Info) (nodes : Node → Node) (codes : List Code) :
    nodeList info nodes codes = codes.map (node info nodes) := by
  induction codes with
  | nil => rfl
  | cons code rest ih => rw [nodeList, ih, List.map_cons]

theorem genuine_digit {c : Char} (h : c.isDigit) :
    Word.Genuine ⟨.number, String.ofList [c], String.ofList [c]⟩ := by
  have hnumeral : Token.Numeral ([c] ++ [] ++ []) :=
    .decimal (by simpa using h) .none .none
  exact .number hnumeral (by simp [Token.startsNumber, h])

def Place.Fits (node : Node) : Place → Prop
  | .operand => IsOperand node
  | .value => ∀ depth, Phrase false .assignment depth node
  | .statement => ∀ depth, Phrase false .statement depth node

theorem fits_block {id pos fin : Nat} {statements : List Node}
    (h : ∀ node ∈ statements, Place.statement.Fits node) :
    Place.statement.Fits (.mk ⟨id, pos, fin, {}⟩ (.block statements)) :=
  fun depth => .ofBlock nofun (.block fun node hn => h node hn (depth + 1))

theorem fits_declaration {id pos fin : Nat} {text : String} {value : Node} (hname : IsName text)
    (hvalue : value.isPresent → Place.value.Fits value) :
    Place.statement.Fits (declaration ⟨id, pos, fin, {}⟩ text value) := by
  intro depth
  refine .variableStatement nofun (@Phrase.variables _ _ _ _ _ .varWord _ (by simp) ?_)
  exact List.forall_mem_singleton.mpr (.variable (hname.leaf rfl) fun hpresent => hvalue hpresent _)

theorem fits_assign {id pos fin : Nat} {text : String} {value : Node} (hname : IsName text)
    (hvalue : Place.value.Fits value) :
    Place.statement.Fits (.mk ⟨id, pos, fin, {}⟩ (.evaluate (.mk ⟨id, pos, fin, {}⟩
      (.binary (.mk ⟨id, pos, fin, {}⟩ (.identifier text)) (some .assign) value)))) := by
  intro depth
  have hoperand : IsOperand (.mk ⟨id, pos, fin, {}⟩ (.identifier text)) := hname.operand
  obtain ⟨links, hphrase⟩ := hoperand.phrase (depth + 2)
  have hfirst := firstKind?_of_append (@Grammar.words_binary ⟨id, pos, fin, {}⟩ _ value .assign)
    hphrase.words_ne_nil
  refine .evaluate nofun (.ofAssignment (.assign nofun (.ofUnary (.ofOperand (.ofMember hphrase))) rfl
    rfl (hvalue _))) ?_ ?_
  · exact hfirst ▸ hoperand.first.1
  · exact hfirst ▸ hoperand.first.2

/-- Code of a form is a phrase as a tree, if the source nodes in it are values. -/
theorem Stands.fits {P : Node → Prop} {place : Place} {code : Code} (h : Stands P place code)
    {id pos fin : Nat} {nodes : Node → Node} (hsources : ∀ node, P node → Place.value.Fits (nodes node)) :
    place.Fits (code.node ⟨id, pos, fin, {}⟩ nodes) := by
  induction h with
  | number htext =>
    obtain rfl | rfl := htext
    · exact .of_leaf (@Leaf.literal _ _ _ _ false _ _ rfl (@genuine_digit '0' rfl))
    · exact .of_leaf (@Leaf.literal _ _ _ _ false _ _ rfl (@genuine_digit '1' rfl))
  | string => exact .of_leaf (@Leaf.literal _ _ _ _ true _ _ rfl genuine_emptyReduceMessage)
  | @boolean value =>
    cases value with
    | true => exact .of_head (fun _ => .word rfl) rfl ⟨.trueWord, rfl, by simp, by simp⟩
    | false => exact .of_head (fun _ => .word rfl) rfl ⟨.falseWord, rfl, by simp, by simp⟩
  | name htext => exact htext.operand
  | member hobject hproperty =>
    refine hobject.operand.of_chain Grammar.words_access rfl fun depth => ?_
    obtain ⟨links, hphrase⟩ := hobject.operand.phrase depth
    exact ⟨_, .access hphrase rfl .unlimited (hproperty.leaf rfl)⟩
  | element hobject _ ih =>
    refine hobject.operand.of_chain Grammar.words_element rfl fun depth => ?_
    obtain ⟨links, hphrase⟩ := hobject.operand.phrase depth
    exact ⟨_, .element hphrase rfl .unlimited (.ofAssignment (ih.value _))⟩
  | call _ _ ih ihArguments =>
    refine ih.of_chain Grammar.words_call rfl fun depth => ?_
    obtain ⟨links, hphrase⟩ := ih.phrase depth
    refine ⟨_, .call hphrase ih.closed .unlimited ?_⟩
    rw [nodeList_eq_map, List.forall_mem_map]
    exact fun argument ha => (ihArguments argument ha).value _
  | new hcallee _ ih =>
    refine .of_head (fun depth => .ofNew (.newListed (.ofHead (.leaf (hcallee.leaf rfl))) rfl ?_)) rfl
      ⟨.newWord, ?_, by simp, by simp⟩
    · rw [nodeList_eq_map, List.forall_mem_map]
      exact fun argument ha => (ih argument ha).value _
    · rw [firstKind?, Code.node, Grammar.words_newListed]
      rfl
  | array => exact .of_head (fun _ => .array (by rintro _ ⟨⟩)) rfl ⟨.openBracket, rfl, by simp, by simp⟩
  | ofOperand _ ih => exact ih.value
  | undefined =>
    exact fun depth => .ofBinary .unlimited (.ofUnary (.leading rfl .unlimited
      (.ofOperand (.ofMember (.ofHead (.leaf (@Leaf.literal _ _ _ _ false _ _ rfl (@genuine_digit '0' rfl))))))))
  | @compare left right operator _ hoperator _ ih ihRight =>
    intro depth
    obtain ⟨links, hleft⟩ := ih.phrase (depth + 1)
    obtain ⟨more, hright⟩ := ihRight.phrase (depth + 2)
    obtain rfl | rfl := hoperator
    · exact .ofBinary .unlimited (@Phrase.operator _ _ _ _ _ _ 0 0 .less _ _ (by decide) (by decide)
        (.ofUnary (.ofOperand (.ofMember hleft))) .unlimited (.ofUnary (.ofOperand (.ofMember hright))))
    · exact .ofBinary .unlimited (@Phrase.operator _ _ _ _ _ _ 0 0 .identical _ _ (by decide) (by decide)
        (.ofUnary (.ofOperand (.ofMember hleft))) .unlimited (.ofUnary (.ofOperand (.ofMember hright))))
  | not _ ih =>
    intro depth
    obtain ⟨links, hphrase⟩ := ih.phrase (depth + 2)
    exact .ofBinary .unlimited (.ofUnary (@Phrase.leading _ _ _ _ _ .not _ rfl
      .unlimited (.ofOperand (.ofMember hphrase))))
  | increment htext =>
    intro depth
    exact .ofBinary .unlimited (.ofUnary (.ofOperand (@Phrase.trailing _ _ _ _ _ _ .increment _ (.inl rfl)
      (.ofHead (.leaf (htext.leaf rfl))))))
  | declare htext => exact fits_declaration htext (by rintro ⟨⟩)
  | initial htext _ ih => exact fits_declaration htext fun _ => ih
  | capture htext hnode => exact fits_declaration htext fun _ => hsources _ hnode
  | assign htext _ ih => exact fits_assign htext ih
  | evaluate _ ih => exact fun depth => .evaluate .unlimited (.ofAssignment (ih.value _)) ih.first.1 ih.first.2
  | when _ _ ih ihStatements =>
    intro depth
    refine .branch .unlimited (.ofAssignment (ih _)) (fits_block ?_ _) (by rintro ⟨⟩) (by rintro ⟨⟩)
    rw [nodeList_eq_map, List.forall_mem_map]
    exact ihStatements
  | loop _ _ _ ih ihUpdate ihStatements =>
    intro depth
    refine @Phrase.forLoop _ _ _ _ _ 0 0 0 _ _ _ _ .unlimited (by rintro ⟨⟩) (by rintro ⟨⟩)
      (fun _ => .ofAssignment (ih _))
      (fun _ => .ofAssignment (ihUpdate _)) (fits_block ?_ _)
    rw [nodeList_eq_map, List.forall_mem_map]
    exact ihStatements
  | throw _ ih => exact fun depth => .exit .unlimited (fun _ => (ih 0).isPresent) fun _ => .ofAssignment (ih _)
  | «break» => exact fun depth => .jump .unlimited (.inl rfl)

theorem Stands.pointsApart {P : Node → Prop} {place : Place} {code : Code} (h : Stands P place code)
    {info : Info} {nodes : Node → Node} (hsources : ∀ node, P node → PointsApart (nodes node)) :
    PointsApart (code.node info nodes) := by
  have hdeclaration : ∀ {text value}, PointsApart value → PointsApart (declaration info text value) := by
    intro text value hvalue
    simp only [declaration, pointsApart_mk, Shape.parts, List.forall_mem_cons]
    exact ⟨⟨⟨⟨⟨⟨⟨nofun, nofun⟩, hvalue, nofun⟩, nofun⟩, nofun⟩, nofun⟩, nofun⟩, nofun⟩
  induction h with
  | capture _ hnode => exact hdeclaration (hsources _ hnode)
  | declare => exact hdeclaration pointsApart_absent
  | initial _ _ ih => exact hdeclaration ih
  | element _ _ ih | ofOperand _ ih | compare _ _ _ _ ih | not _ ih | assign _ _ ih | evaluate _ ih
  | throw _ ih => simp_all [node, pointsApart_mk, Shape.parts, Code.assign, Code.not]
  | call _ _ _ ih | new _ _ ih | when _ _ _ ih | loop _ _ _ _ _ ih =>
    simp_all [node, node?, nodeList_eq_map, pointsApart_mk, pointsApart_absent, Shape.parts, Code.when]
  | _ => simp [node, nodeList, numeral, pointsApart_mk, Shape.parts, isDigits]

end Code

end ArrayLoops.Lowering
