import ArrayLoops.Proofs.Rereading

/-!
# Expressions are read as they are written

One lemma for each production, from names and lists up to expressions with commas. A chain of links is
read link by link: its links are still open when the loop goes on behind it.
-/

namespace ArrayLoops.Grammar

open Token (Kind)
open ArrayLoops.Tree (Flags Info Node Shape)
open Spelling (sign)

variable {β : Type} {limited : Bool} {n slack depth : Nat} {s : State} {ws : List Spelling} {node : Node}
  {R : β → State → Prop}

theorem atName_eq (s : State) : s.atName = isMemberName s.current.kind := rfl

theorem isTarget_unplaced (node : Node) : isTarget node.unplaced = isTarget node := by
  fun_induction isTarget node with
  | case1 => rw [Node.unplaced_mk]; rfl
  | case2 => rw [Node.unplaced_mk]; rfl
  | case3 _ expression ih => rw [Node.unplaced_mk]; exact ih
  | case4 node =>
    cases node with
    | absent => rfl
    | mk info shape =>
      rw [Node.unplaced_mk]
      cases shape with
      | parenthesized => simp_all
      | access isComputed => cases isComputed <;> simp_all
      | identifier => simp_all
      | _ => rfl

theorem startsExpression_ne {kind close : Kind} (h : startsExpression kind)
    (hc : startsExpression close = false) : kind ≠ close := by
  rintro rfl
  simp [h] at hc

section
variable {self : Productions} (hself : Rereads limited n self)
include hself

attribute [local simp] Shape.map Node.unplaced_mk

theorem readsItem_assignment {close : Kind} (h : Phrase limited .assignment depth node)
    (hclose : endsAssignment close) : ReadsItem limited n close (self .assignment) depth node := by
  intro m ws hnext hm
  refine (hself .assignment node depth m ws hm h ?_).spare (by decide)
  obtain hnext | hnext := hnext
  · rw [hnext]
    rfl
  · rw [hnext]
    exact hclose

theorem yields_argumentList {arguments : List Node} {count : Nat}
    (h : ∀ argument ∈ arguments, Phrase limited .assignment depth argument)
    (hs : Ready depth s (between .openParen .closeParen (commas (arguments.map words)) ++ ws))
    (hcount : (between .openParen .closeParen (commas (arguments.map words)) ++ ws).length ≤ count) :
    Yields limited n slack s (argumentList count self) (RereadAll depth arguments ws) := by
  rw [between_append] at hs hcount
  refine .expect hs fun m hm => .bind (yields_itemsOnto (by decide) (fun argument ha => ?_)
    (fun argument ha ws => ?_) hm (Nat.le_of_succ_le hcount)) ?_
  · exact readsItem_assignment hself (h argument ha) rfl
  · have hstarts := (h argument ha).begins ws
    exact ⟨startsExpression_ne hstarts rfl, startsExpression_ne hstarts rfl⟩
  · rintro made later ⟨halike, hlater⟩
    exact .expect hlater fun last hlast => .pure ⟨by simpa using halike, hlast⟩

theorem yields_initializer {value : Node}
    (h : value.isPresent → Phrase limited .assignment depth value)
    (hnext : endsAssignment (nextKind ws)) (hassign : nextKind ws ≠ .assign)
    (hs : Ready depth s (announced .assign (value, words value) ++ ws)) :
    Yields limited n slack s (initializer self) (Reread depth value ws) := by
  cases value with
  | absent =>
    refine .refused ?_ (.pure ⟨rfl, hs⟩)
    rw [hs.kind]
    exact hassign
  | mk info shape =>
    simp only [announced, Node.isPresent, if_true, List.cons_append] at hs
    exact .accepted hs fun m hm => (hself .assignment _ _ m ws hm (h rfl) hnext).spare (by decide)

theorem yields_binding {make : Node → Node → Shape Node} {name value : Node} {id pos fin : Nat}
    (hmake : ∀ a b : Node, (make a b).map Node.unplaced = make a.unplaced b.unplaced)
    (hname : Leaf isBinding name) (h : value.isPresent → Phrase limited .assignment depth value)
    (hnext : nextKind ws = .comma ∨ nextKind ws = .closeParen ∨ nextKind ws = .semicolon)
    (hs : Ready depth s (words name ++ announced .assign (value, words value) ++ ws)) :
    Yields limited n slack s (do
      let pos ← here
      let name ← bindingName
      let value ← initializer self
      Grammar.node pos (make name value))
      (Reread depth (.mk ⟨id, pos, fin, {}⟩ (make name value)) ws) := by
  rw [List.append_assoc] at hs
  refine .here (.bind (yields_bindingName hname hs) ?_)
  rintro madeName m ⟨hnameAlike, hm⟩
  have hends : endsAssignment (nextKind ws) ∧ nextKind ws ≠ .assign := by
    obtain hnext | hnext | hnext := hnext <;> rw [hnext] <;> decide
  refine .bind (yields_initializer hself h hends.1 hends.2 hm) ?_
  rintro madeValue later ⟨hvalueAlike, hlater⟩
  refine .made hlater rfl ?_
  rw [hmake, hmake, hnameAlike, hvalueAlike]

theorem yields_parameterList {parameters : List Node}
    (h : ∀ parameter ∈ parameters, Phrase limited .parameter depth parameter)
    (hs : Ready depth s (between .openParen .closeParen (commas (parameters.map words)) ++ ws)) :
    Yields limited n slack s (parameterList n self) (RereadAll depth parameters ws) := by
  rw [between_append] at hs
  refine .expectThen hs fun m hm => .fuel hm fun hfuel => .bind (yields_itemsOnto (by decide)
    (fun parameter hp => ?_) (fun parameter hp ws => ?_) hm (by omega)) ?_
  · intro later ws hnext hlater
    cases h parameter hp with
    | parameter hname hvalue =>
      rw [words_parameter] at hlater
      exact yields_binding hself (fun _ _ => rfl) hname hvalue (hnext.imp_right .inl) hlater
  · have hbinding : isBinding (nextKind (words parameter ++ ws)) := (h parameter hp).begins ws
    rw [isBinding, beq_iff_eq] at hbinding
    simp [hbinding]
  · rintro made later ⟨halike, hlater⟩
    exact .expect hlater fun last hlast => .pure ⟨by simpa using halike, hlast⟩

theorem yields_parenthesized {id pos fin links : Nat} {inner : Node}
    (h : Phrase limited (.expression links) depth inner)
    (hs : Ready depth s (words (.mk ⟨id, pos, fin, {}⟩ (.parenthesized inner)) ++ ws)) :
    Yields limited n slack s (parenthesized self)
      (Reread depth (.mk ⟨id, pos, fin, {}⟩ (.parenthesized inner)) ws) := by
  rw [words_parenthesized, between_append] at hs
  refine .here (.expect hs fun m hm => .read hself hm ⟨links, h⟩ rfl ?_)
  rintro made later ⟨halike, hlater⟩
  refine .expect hlater fun last hlast => .made hlast rfl ?_
  simp [halike]

theorem yields_arrayLiteral {id pos fin : Nat} {elements : List Node}
    (h : ∀ element ∈ elements, Phrase limited .assignment depth element)
    (hs : Ready depth s (words (.mk ⟨id, pos, fin, {}⟩ (.collection false elements)) ++ ws)) :
    Yields limited n slack s (arrayLiteral n self)
      (Reread depth (.mk ⟨id, pos, fin, {}⟩ (.collection false elements)) ws) := by
  rw [words_array, between_append] at hs
  refine .here (.expect hs fun m hm => .fuel hm fun hfuel => .bind (yields_elementsOnto
    (fun element he => readsItem_assignment hself (h element he) rfl)
    (fun element he ws => (h element he).begins ws) hm (by omega)) ?_)
  rintro made later ⟨halike, hlater⟩
  exact .expect hlater fun last hlast => .made hlast rfl (by simpa using halike)

theorem yields_property (h : Phrase limited .property depth node) :
    ReadsItem limited n .closeBrace (property self) depth node := by
  intro m ws hnext hm
  have hends : endsAssignment (nextKind ws) ∧ nextKind ws ≠ .colon := by
    obtain hnext | hnext := hnext <;> rw [hnext] <;> decide
  let rest := propertyRest self m.current.start m.atName
  have hname : ∀ name others, Leaf isKey name → Ready depth m (words name ++ others) →
      (∀ made later, Reread depth name others made later →
        Yields limited n 8 later (rest made) (Reread depth node ws)) →
      Yields limited n 8 m (property self) (Reread depth node ws) := by
    intro name others hleaf hname hrest
    have hkey : isMemberName m.current.kind ∨ isLiteral m.current.kind := by
      have := hleaf.begins others
      rwa [← hname.kind, isKey, Bool.or_eq_true] at this
    have hliteral : isLiteral m.current.kind → Yields limited n 8 m (literal >>= rest)
        (Reread depth node ws) := fun hk =>
      .bind (yields_literal hleaf (hname.kind ▸ hk) hname) hrest
    have hword : m.atName → Yields limited n 8 m (if m.atName then propertyName >>= rest
        else missingBecause .propertyExpected >>= rest) (Reread depth node ws) := fun hat =>
      .pos hat (.bind (yields_propertyName (hleaf.ofKind (hname.kind ▸ atName_eq m ▸ hat)) hname) hrest)
    refine .here (.check rfl (.kind rfl ?_))
    have hat : isLiteral m.current.kind = false → m.atName := fun hk =>
      hkey.resolve_right (by simp [hk])
    generalize m.current.kind = kind at hat hliteral ⊢
    cases kind with
    | string | number => exact hliteral rfl
    | _ => exact hword (hat rfl)
  cases h with
  | @property _ id pos fin name value hleaf hvalue =>
    obtain ⟨info, shape, rfl⟩ : ∃ info shape, value = .mk info shape := by
      cases value with
      | absent => cases hvalue.isPresent
      | mk info shape => exact ⟨info, shape, rfl⟩
    rw [words_property, List.append_assoc] at hm
    simp only [announced, Node.isPresent, if_true, List.cons_append] at hm
    refine hname name _ hleaf hm fun made later hread => ?_
    refine .accepted hread.ready fun last hlast => .read hself hlast hvalue hends.1 ?_
    rintro madeValue final ⟨halike, hfinal⟩
    refine .made hfinal rfl ?_
    simp [halike, hread.alike]
  | @shorthand _ id pos fin name hleaf =>
    rw [words_property, List.append_assoc] at hm
    have hat : m.atName := by
      rw [atName_eq, hm.kind]
      exact hleaf.begins _
    refine hname name _ hleaf.isKey hm fun made later hread => ?_
    refine .refused ?_ (.neg (by simp) (.pos hat (.made hread.ready rfl ?_)))
    · rw [hread.ready.kind]
      exact hends.2
    · simp [hread.alike]

theorem yields_objectLiteral {id pos fin : Nat} {properties : List Node}
    (h : ∀ property ∈ properties, Phrase limited .property depth property)
    (hs : Ready depth s (words (.mk ⟨id, pos, fin, {}⟩ (.collection true properties)) ++ ws)) :
    Yields limited n slack s (objectLiteral n self)
      (Reread depth (.mk ⟨id, pos, fin, {}⟩ (.collection true properties)) ws) := by
  rw [words_object, between_append] at hs
  refine .here (.expect hs fun m hm => .fuel hm fun hfuel => .bind (yields_itemsOnto (by decide)
    (fun property hp => yields_property hself (h property hp)) (fun property hp ws => ?_) hm
    (by omega)) ?_)
  · have hkey : ∀ kind, isKey kind → kind ≠ .closeBrace ∧ kind ≠ .endOfFile := by
      intro kind
      cases kind <;> decide
    exact hkey _ ((h property hp).begins ws)
  · rintro made later ⟨halike, hlater⟩
    exact .expect hlater fun last hlast => .made hlast rfl (by simpa using halike)

theorem yields_functionRest {form : Tree.FunctionForm} {id pos fin start : Nat} {name made body : Node}
    {parameters : List Node} (hparameters : ∀ parameter ∈ parameters, Phrase limited .parameter depth parameter)
    (hbody : Phrase limited .block depth body)
    (h : Reread depth name (between .openParen .closeParen (commas (parameters.map words)) ++
      (words body ++ ws)) made s) :
    Yields limited n 8 s (functionRest form n self start made)
      (Reread depth (.mk ⟨id, pos, fin, {}⟩ (.function form name parameters body)) ws) := by
  obtain ⟨halike, hs⟩ := h
  refine .bind (yields_parameterList hself hparameters hs) ?_
  rintro madeParameters later ⟨hparametersAlike, hlater⟩
  refine .read hself hlater hbody trivial ?_
  rintro madeBody last ⟨hbodyAlike, hlast⟩
  refine .made hlast rfl ?_
  simp [halike, hparametersAlike, hbodyAlike]

theorem yields_functionExpression {id pos fin : Nat} {name body : Node} {parameters : List Node}
    (hname : name.isPresent → Leaf isBinding name)
    (hparameters : ∀ parameter ∈ parameters, Phrase limited .parameter depth parameter)
    (hbody : Phrase limited .block depth body)
    (hs : Ready depth s
      (words (.mk ⟨id, pos, fin, {}⟩ (.function .expression name parameters body)) ++ ws)) :
    Yields limited n slack s (functionExpression n self)
      (Reread depth (.mk ⟨id, pos, fin, {}⟩ (.function .expression name parameters body)) ws) := by
  rw [words_function (by decide)] at hs
  simp only [List.cons_append, List.append_assoc] at hs
  refine .here (.expect hs fun m hm => ?_)
  cases name with
  | absent =>
    have hk : m.current.kind = .openParen := hm.kind
    exact .kind hk (.neg (by simp) (yields_functionRest hself hparameters hbody ⟨rfl, hm⟩))
  | mk info shape =>
    have hk : m.current.kind = .identifier := hm.kind.trans (beq_iff_eq.mp ((hname rfl).begins _))
    exact .kind hk (.pos rfl (.bind (yields_identifier (hname rfl) hm) fun _ _ =>
      yields_functionRest hself hparameters hbody))

theorem yields_primary (h : Phrase limited .head depth node)
    (hnew : nextKind (words node ++ ws) ≠ .newWord) (hs : Ready depth s (words node ++ ws)) :
    Yields limited n slack s (primary n self) (Reread depth node ws) := by
  have hkind := hs.kind
  cases h with
  | leaf hleaf =>
    have hoperand := hleaf.begins ws
    generalize hfirst : nextKind (words node ++ ws) = kind at hkind hoperand
    cases kind with
    | identifier =>
      have hbinding : isBinding (nextKind (words node ++ ws)) := hfirst ▸ rfl
      exact .kind hkind (yields_identifier (hleaf.ofKind hbinding) hs)
    | number | string => exact .kind hkind (yields_literal hleaf (hfirst ▸ rfl) hs)
    | _ => cases hoperand
  | @word _ _ _ _ kind hword =>
    cases kind with
    | thisWord | trueWord | falseWord | nullWord => exact .kind hkind (yields_wordExpression hs)
    | _ => cases hword
  | parenthesized h => exact .kind hkind (yields_parenthesized hself h hs)
  | array h => exact .kind hkind (yields_arrayLiteral hself h hs)
  | object h => exact .kind hkind (yields_objectLiteral hself h hs)
  | functionExpression hname hparameters hbody =>
    exact .kind hkind (yields_functionExpression hself hname hparameters hbody hs)
  | ofNew h =>
    refine absurd ?_ hnew
    cases h with
    | newListed => rw [words_newListed]; rfl
    | newBare => rw [words_newBare]; rfl

theorem yields_memberHead (h : Phrase limited .head depth node)
    (hopen : isOpenNew node → isLink true (nextKind ws) = false) (hs : Ready depth s (words node ++ ws)) :
    Yields limited n 1 s (memberHead n self) (Reread depth node ws) := by
  by_cases hnew : nextKind (words node ++ ws) = .newWord
  · have hnewPhrase : Phrase limited .new depth node := by
      cases h with
      | ofNew h => exact h
      | leaf hleaf =>
        have := hleaf.begins ws
        rw [hnew] at this
        cases this
      | word hword =>
        cases hnew
        cases hword
      | _ => cases hnew
    exact .kind (hs.kind.trans hnew) (.pos rfl (hself .new node depth s ws hs hnewPhrase hopen))
  · exact .kind hs.kind (.neg (by simpa using hnew) (yields_primary hself h hnew hs))

theorem yields_member {calls : Bool} {links pos count : Nat} {R : Node → State → Prop}
    (h : Phrase limited (.member calls links) depth node)
    (hopen : isOpenNew node → isLink true (nextKind ws) = false)
    (hs : Ready depth s (words node ++ ws)) (hcount : (words node ++ ws).length < count)
    (hrest : ∀ made m count, Reread (depth + links) node ws made m → ws.length < count →
      Yields limited n 1 m (memberRest calls self pos count links made) R) :
    Yields limited n 1 s (memberHead n self >>= memberRest calls self pos count 0) R := by
  generalize hlevel : Level.member calls links = level at h
  induction h generalizing links ws with
  | ofHead h =>
    cases hlevel
    refine .bind (yields_memberHead hself h hopen hs) fun made m hread => ?_
    exact hrest made m count hread (by rw [List.length_append] at hcount; omega)
  | @access _ _ _ _ _ _ object key _ hclosed hroom hkey ih =>
    cases hlevel
    rw [words_access, List.append_assoc] at hs hcount
    refine ih (by simp [hclosed]) hs hcount (fun made m count hread hcount => ?_) rfl
    obtain ⟨halike, hm⟩ := hread
    have hkind : m.current.kind = .dot := hm.kind
    cases count with
    | zero => cases hcount
    | succ count =>
      refine .kind hkind (.neg (by simp) (.enter hm hroom fun _ hopened => .neg (by simp) ?_))
      refine .advance hopened fun later hlater => .bind (yields_propertyName hkey hlater) ?_
      rintro madeKey last ⟨hkeyAlike, hlast⟩
      refine .bind (.made hlast rfl ?_) fun made final hmade => (hrest made final count hmade ?_).spare
        (by decide)
      · simp [halike, hkeyAlike]
      · simp only [List.cons_append, List.length_cons, List.length_append] at hcount
        omega
  | @element _ _ _ _ _ _ _ object key _ hclosed hroom hkey ih =>
    cases hlevel
    rw [words_element, List.append_assoc, between_append] at hs hcount
    refine ih (by simp [hclosed]) hs hcount (fun made m count hread hcount => ?_) rfl
    obtain ⟨halike, hm⟩ := hread
    have hkind : m.current.kind = .openBracket := hm.kind
    cases count with
    | zero => cases hcount
    | succ count =>
      refine .kind hkind (.neg (by simp) (.enter hm hroom fun _ hopened => .neg (by simp) ?_))
      refine .advance hopened fun later hlater => .read hself hlater ⟨_, hkey⟩ rfl ?_
      rintro madeKey last ⟨hkeyAlike, hlast⟩
      refine .expect hlast fun final hfinal => .bind (.made hfinal rfl ?_) fun made end' hmade =>
        (hrest made end' count hmade ?_).spare (by decide)
      · simp [halike, hkeyAlike]
      · simp only [List.length_cons, List.length_append] at hcount
        omega
  | @call _ _ _ _ _ callee arguments _ hclosed hroom harguments ih =>
    cases hlevel
    rw [words_call, List.append_assoc] at hs hcount
    refine ih (by simp [hclosed]) hs hcount (fun made m count hread hcount => ?_) rfl
    obtain ⟨halike, hm⟩ := hread
    have hkind : m.current.kind = .openParen := hm.kind
    cases count with
    | zero => cases hcount
    | succ count =>
      refine .kind hkind (.neg (by simp) (.enter hm hroom fun _ hopened => .neg (by simp) ?_))
      refine .bind (yields_argumentList hself harguments hopened (Nat.le_of_lt_succ hcount)) ?_
      rintro madeArguments last ⟨hargumentsAlike, hlast⟩
      refine .bind (.made hlast rfl ?_) fun made final hmade => hrest made final count hmade ?_
      · simp [halike, hargumentsAlike]
      · simp only [between_append, List.length_cons, List.length_append] at hcount
        omega
  | _ => cases hlevel

omit hself in
theorem yields_memberRest_end {calls : Bool} {links pos count : Nat} {made : Node} (hcount : 0 < count)
    (hread : Reread (depth + links) node ws made s) (hlink : isLink calls (nextKind ws) = false) :
    Yields limited n slack s (memberRest calls self pos count links made) (Reread depth node ws) := by
  cases count with
  | zero => cases hcount
  | succ count =>
    exact .kind hread.ready.kind (.pos ((Bool.not_eq_true' _).mpr hlink)
      (.leave hread.ready fun m hm => .pure ⟨hread.alike, hm⟩))

theorem Yields.chain {calls : Bool} {links pos : Nat} {f : Node → Parse β} (hslack : 1 ≤ slack)
    (h : Phrase limited (.member calls links) depth node)
    (hlink : isLink calls (nextKind ws) = false)
    (hopen : isOpenNew node → isLink true (nextKind ws) = false) (hs : Ready depth s (words node ++ ws))
    (hf : ∀ made m, Reread depth node ws made m → Yields limited n slack m (f made) R) :
    Yields limited n slack s (do
      let head ← memberHead n self
      let node ← memberRest calls self pos n 0 head
      f node) R := by
  have hchain : Yields limited n 1 s (memberHead n self >>= memberRest calls self pos n 0)
      (Reread depth node ws) :=
    .fuel hs fun hfuel => yields_member hself h hopen hs (by omega) fun made m count hread hcount =>
      yields_memberRest_end (Nat.zero_lt_of_lt hcount) hread hlink
  exact (hchain.spare hslack).bind hf

theorem yields_newExpression (h : Phrase limited .new depth node)
    (hopen : isOpenNew node → isLink true (nextKind ws) = false)
    (hs : Ready depth s (words node ++ ws)) :
    Yields limited n slack s (newExpression n self) (Reread depth node ws) := by
  cases h with
  | newListed hcallee hclosed harguments =>
    rw [words_newListed, List.append_assoc, List.cons_append] at hs
    refine .here (.expect hs fun m hm => .here (.chain hself (by decide) hcallee rfl (by simp [hclosed])
      hm ?_))
    rintro made later ⟨halike, hlater⟩
    have hkind : later.current.kind = .openParen := hlater.kind
    refine .kind hkind (.pos rfl (.fuel hlater fun hfuel => .bind (yields_argumentList hself harguments
      hlater (by omega)) fun madeArguments last hlast => .made hlast.ready rfl ?_))
    simp [halike, hlast.alike]
  | newBare hcallee =>
    have hlink := hopen rfl
    rw [words_newBare, List.cons_append] at hs
    refine .here (.expect hs fun m hm => .here (.chain hself (by decide) hcallee ?_ (fun _ => hlink)
      hm fun made later hread => ?_))
    · simp_all [isLink]
    · refine .kind hread.ready.kind (.neg ?_ (.made hread.ready rfl ?_))
      · simp_all [isLink]
      · simp [hread.alike]

theorem yields_trailing (h : Phrase limited .operand depth node)
    (hends : endsUnary (nextKind ws)) (hs : Ready depth s (words node ++ ws)) :
    Yields limited n 1 s (trailing n self) (Reread depth node ws) := by
  have hlink : isLink true (nextKind ws) = false ∧ nextKind ws ≠ .increment ∧
      nextKind ws ≠ .decrement := by
    simpa [endsUnary, and_assoc] using hends
  cases h with
  | ofMember h =>
    refine .here (.chain hself (by decide) h hlink.1 (fun _ => hlink.1) hs fun made m hread => ?_)
    refine .current (.neg ?_ (.pure hread))
    simp [hread.ready.kind, hlink]
  | @trailing _ _ _ _ _ operator operand hoperator h =>
    rw [words_trailing, List.append_assoc] at hs
    have hlink : isLink true (nextKind ((sign operator).join :: ws)) = false := by
      obtain rfl | rfl := hoperator <;> rfl
    refine .here (.chain hself (by decide) h hlink (fun _ => hlink) hs fun made m hread => ?_)
    have hfirst := hread.ready.first
    have hkind : m.current.kind = operator := hfirst.kind
    refine .current (.pos ?_ (.advance hread.ready fun later hlater => .made hlater rfl ?_))
    · simpa [hkind, hfirst.joined rfl] using hoperator
    · simp [hread.alike, hkind]

theorem yields_unary (h : Phrase limited .unary depth node)
    (hends : endsUnary (nextKind ws)) (hs : Ready depth s (words node ++ ws)) :
    Yields limited n 1 s (unary n self) (Reread depth node ws) := by
  cases h with
  | ofOperand h =>
    have hoperand := Bool.and_eq_true_iff.mp (h.begins ws)
    rw [← hs.kind] at hoperand
    exact .current (.neg (by simpa using hoperand.2) (yields_trailing hself h hends hs))
  | @leading _ _ _ _ operator _ hoperator hroom h =>
    rw [words_leading, List.cons_append] at hs
    have hkind : s.current.kind = operator := hs.kind
    refine .current (.pos (by rwa [hkind]) (.enter hs hroom fun _ hopened => .pos rfl ?_))
    refine .advance hopened fun m hm => .read hself hm h hends ?_
    rintro made later ⟨halike, hlater⟩
    refine .leave hlater fun last hlast => .made hlast rfl ?_
    simp [halike, hkind]

omit hself in
theorem lt_rightLeast {operator next : Kind} (h : leftLeast next ≤ operator.precedence) :
    next.precedence < rightLeast operator := by
  unfold leftLeast rightLeast at *
  by_cases hn : next = .power
  · subst hn
    by_cases ho : operator = .power
    · subst ho
      simp only [beq_self_eq_true, if_true] at h
      omega
    · have := precedence_lt_power ho
      simp only [beq_self_eq_true, if_true] at h
      omega
  · have := precedence_lt_power hn
    by_cases ho : operator = .power
    · subst ho
      simpa using this
    · simp only [beq_iff_eq, hn, ho, if_false] at h ⊢
      omega

omit hself in
theorem le_leftLeast (operator : Kind) : operator.precedence ≤ leftLeast operator := by
  unfold leftLeast
  split <;> omega

omit hself in
theorem endsUnary_of_precedence {operator : Kind} (h : operator.precedence ≠ 0) :
    endsUnary operator := by
  revert h
  cases operator <;> decide

/-- An operator behind a chain of operators does not belong to its last operand. -/
theorem yields_operators {least level links pos count : Nat} {R : Node → State → Prop}
    (hleast : least ≤ level) (h : Phrase limited (.binary level links) depth node)
    (hends : endsUnary (nextKind ws))
    (hloose : ∀ operator : Kind, operator.precedence ≠ 0 → level ≤ operator.precedence →
      (nextKind ws).precedence = 0 ∨ (nextKind ws).precedence < rightLeast operator)
    (hs : Ready depth s (words node ++ ws)) (hcount : (words node ++ ws).length < count)
    (hrest : ∀ made m count, Reread (depth + links) node ws made m → ws.length < count →
      Yields limited n 2 m (binaryRest least self pos count links made) R) :
    Yields limited n 2 s (self .unary >>= binaryRest least self pos count 0) R := by
  generalize hlevel : Level.binary level links = level' at h
  induction h generalizing level links ws with
  | ofUnary h =>
    cases hlevel
    refine .bind (hself .unary _ _ s ws hs h hends) fun made m hread => ?_
    exact hrest made m count hread (by rw [List.length_append] at hcount; omega)
  | @operator _ _ _ _ _ links more operator left right hoperator hlevel' _ hroom hright ih =>
    cases hlevel
    rw [words_binary, List.append_assoc, List.cons_append] at hs hcount
    have hends' : endsUnary (nextKind (sign operator :: (words right ++ ws))) :=
      endsUnary_of_precedence hoperator
    have hleft : least ≤ leftLeast operator := Nat.le_trans (Nat.le_trans hleast hlevel') (le_leftLeast operator)
    refine ih hleft hends' (fun other _ hother => .inr (lt_rightLeast hother)) hs hcount
      (fun made m count hread hcount => ?_) rfl
    obtain ⟨halike, hm⟩ := hread
    have hkind : m.current.kind = operator := hm.kind
    cases count with
    | zero => cases hcount
    | succ count =>
      refine .kind hkind (.neg ?_ (.enter hm hroom fun _ hopened => .neg (by simp) ?_))
      · simp only [Bool.or_eq_true, beq_iff_eq, decide_eq_true_eq, not_or]
        omega
      have hfits : (Goal.binary (rightLeast operator)).Fits limited _ right := ⟨_, hright⟩
      refine .advance hopened fun later hlater =>
        .read hself hlater hfits ⟨hends, hloose operator hoperator hlevel'⟩ ?_
      rintro madeRight last ⟨hrightAlike, hlast⟩
      refine .bind (.made hlast rfl ?_) fun made final hmade => (hrest made final count hmade ?_).spare
        (by decide)
      · simp [halike, hrightAlike]
      · simp only [List.length_cons, List.length_append] at hcount
        omega
  | _ => cases hlevel

theorem yields_binary {least links : Nat} (h : Phrase limited (.binary least links) depth node)
    (hends : endsUnary (nextKind ws))
    (hnext : (nextKind ws).precedence = 0 ∨ (nextKind ws).precedence < least)
    (hs : Ready depth s (words node ++ ws)) :
    Yields limited n 2 s (binary n self least) (Reread depth node ws) := by
  refine .fuel hs fun hfuel => .here (yields_operators hself (Nat.le_refl least) h hends ?_ hs
    (by omega) ?_)
  · intro operator _ hoperator
    refine hnext.imp_right fun hlt => ?_
    unfold rightLeast
    split <;> omega
  · intro made m count hread hcount
    cases count with
    | zero => cases hcount
    | succ count =>
      exact .kind hread.ready.kind (.pos (by simpa using hnext)
        (.leave hread.ready fun last hlast => .pure ⟨hread.alike, hlast⟩))

omit hself in
theorem startsArrow_of_words {info : Info} {parameters : List Node} {body : Node} {inside : Nat}
    (h : ∀ parameter ∈ parameters, Phrase limited .parameter inside parameter)
    (hs : Ready depth s (words (.mk info (.function .arrow .absent parameters body)) ++ ws)) :
    s.startsArrow = true := by
  have hspells := hs.spells
  simp only [words_arrow, List.append_assoc, List.cons_append] at hspells
  have hbalanced := Balanced.listed fun parameter hp => (h parameter hp).balanced
  exact hbalanced.startsArrow hspells

theorem yields_arrowFunction {id pos fin : Nat} {flags : Flags} {parameters : List Node} {body : Node}
    (hparameters : ∀ parameter ∈ parameters, Phrase limited .parameter depth parameter)
    (hbody : Phrase limited .block depth body ∧ flags = {} ∨
      Phrase limited .assignment depth body ∧ firstKind? body ≠ some .openBrace ∧
        flags = { expressionBody := true })
    (hends : endsAssignment (nextKind ws))
    (hs : Ready depth s
      (words (.mk ⟨id, pos, fin, flags⟩ (.function .arrow .absent parameters body)) ++ ws)) :
    Yields limited n slack s (arrowFunction n self)
      (Reread depth (.mk ⟨id, pos, fin, flags⟩ (.function .arrow .absent parameters body)) ws) := by
  rw [words_arrow, List.append_assoc, List.cons_append] at hs
  have hkind : s.current.kind = .openParen := hs.kind
  refine .here (.kind hkind (.neg nofun (.bind (yields_parameterList hself hparameters hs) ?_)))
  rintro made m ⟨halike, hm⟩
  refine .expect hm.unjoin fun later hlater => ?_
  obtain ⟨hbody, rfl⟩ | ⟨hbody, hfirst, rfl⟩ := hbody
  · have hbrace : later.current.kind = .openBrace := hlater.kind.trans (beq_iff_eq.mp (hbody.begins ws))
    refine .kind hbrace (.pos rfl (.read hself hlater hbody trivial ?_))
    rintro madeBody last ⟨hbodyAlike, hlast⟩
    refine .made hlast rfl ?_
    simp [halike, hbodyAlike]
  · refine .kind hlater.kind (.neg ?_ (.read hself hlater hbody hends ?_))
    · rw [firstKind?_eq hbody.words_ne_nil ws] at hfirst
      simpa using hfirst
    rintro madeBody last ⟨hbodyAlike, hlast⟩
    refine .made hlast rfl ?_
    simp [halike, hbodyAlike]

theorem yields_operation {links : Nat} {R : Node → State → Prop}
    (h : Phrase limited (.binary 1 links) depth node) (hs : Ready depth s (words node ++ ws))
    (hends : endsUnary (nextKind ws)) (hprecedence : (nextKind ws).precedence = 0)
    (harrow : nextKind ws ≠ .arrow)
    (hrest : ∀ made m, Reread depth node ws made m → Yields limited n 3 m (do
      let operator ← kind
      if operator.isAssignment then
        unless isTarget made do
          complain .assignmentTarget
        advance
        let right ← self .assignment
        Grammar.node s.current.start (.binary made operator right)
      else if ← accept .question then
        let whenTrue ← self .assignment
        discard (expect .colon)
        let whenFalse ← self .assignment
        Grammar.node s.current.start (.conditional made whenTrue whenFalse)
      else
        return made) R) : Yields limited n 3 s (assignmentInside n self) R := by
  have hplain : s.startsArrow = false := ((h.plain rfl).append harrow).not_startsArrow hs.spells
  exact .check hplain (.neg nofun (.here (.bind (hself (.binary 1) node depth s ws hs ⟨links, h⟩
    ⟨hends, .inl hprecedence⟩) hrest)))

theorem yields_assignmentInside (h : Phrase limited .assignment depth node)
    (hends : endsAssignment (nextKind ws)) (hs : Ready (depth + 1) s (words node ++ ws)) :
    Yields limited n 3 s (assignmentInside n self) (Reread (depth + 1) node ws) := by
  have hends' : endsUnary (nextKind ws) ∧ (nextKind ws).precedence = 0 ∧
      (nextKind ws).isAssignment = false ∧ nextKind ws ≠ .question ∧ nextKind ws ≠ .arrow := by
    simpa [endsAssignment, and_assoc] using hends
  obtain ⟨hunary, hprecedence, hassignment, hquestion, harrow⟩ := hends'
  cases h with
  | ofBinary _ h =>
    refine yields_operation hself h hs hunary hprecedence harrow fun made m hread => ?_
    refine .kind hread.ready.kind (.neg (by simp [hassignment]) (.refused ?_ (.pure hread)))
    rw [hread.ready.kind]
    exact hquestion
  | @assign _ _ _ _ _ operator left right _ h htarget hoperator hright =>
    rw [words_binary, List.append_assoc, List.cons_append] at hs
    have hassign : ∀ kind : Kind, kind.isAssignment → endsUnary kind ∧ kind.precedence = 0 ∧
        kind ≠ .arrow := by
      intro kind
      cases kind <;> decide
    obtain ⟨hunary', hprecedence', harrow'⟩ := hassign operator hoperator
    refine yields_operation hself h hs hunary' hprecedence' harrow' fun made m hread => ?_
    obtain ⟨halike, hm⟩ := hread
    have hkind : m.current.kind = operator := hm.kind
    have hmadeTarget : isTarget made := by
      rw [← isTarget_unplaced, halike, isTarget_unplaced]
      exact htarget
    refine .kind hkind (.pos hoperator (.pos hmadeTarget (.advance hm fun later hlater => ?_)))
    refine .read hself hlater hright hends ?_
    rintro madeRight last ⟨hrightAlike, hlast⟩
    refine .made hlast rfl ?_
    simp [halike, hrightAlike]
  | @conditional _ _ _ _ _ condition whenTrue whenFalse _ h htrue hfalse =>
    simp only [words_conditional, List.append_assoc, List.cons_append] at hs
    refine yields_operation hself h hs rfl rfl (by simp) fun made m hread => ?_
    obtain ⟨halike, hm⟩ := hread
    have hkind : m.current.kind = .question := hm.kind
    refine .kind hkind (.neg (by rintro ⟨⟩) (.accepted hm fun later hlater => ?_))
    refine .read hself hlater htrue rfl ?_
    rintro madeTrue last ⟨htrueAlike, hlast⟩
    refine .expect hlast fun final hfinal => .read hself hfinal hfalse hends ?_
    rintro madeFalse end' ⟨hfalseAlike, hend⟩
    refine .made hend rfl ?_
    simp [halike, htrueAlike, hfalseAlike]
  | arrowBlock _ hparameters hbody =>
    exact .check (startsArrow_of_words hparameters hs) (.pos rfl
      (yields_arrowFunction hself hparameters (.inl ⟨hbody, rfl⟩) hends hs))
  | arrowExpression _ hparameters hbody hfirst =>
    exact .check (startsArrow_of_words hparameters hs) (.pos rfl
      (yields_arrowFunction hself hparameters (.inr ⟨hbody, hfirst, rfl⟩) hends hs))

theorem yields_assignment (h : Phrase limited .assignment depth node)
    (hends : endsAssignment (nextKind ws)) (hs : Ready depth s (words node ++ ws)) :
    Yields limited n 3 s (assignment n self) (Reread depth node ws) := by
  have hroom : Room limited depth := by
    cases h <;> assumption
  refine .enter hs hroom fun m hm => .pos rfl (.bind (yields_assignmentInside hself h hends hm) ?_)
  rintro made later ⟨halike, hlater⟩
  exact .leave hlater fun last hlast => .pure ⟨halike, hlast⟩

theorem yields_commas {links pos count : Nat} {R : Node → State → Prop}
    (h : Phrase limited (.expression links) depth node) (hends : endsAssignment (nextKind ws))
    (hs : Ready depth s (words node ++ ws)) (hcount : (words node ++ ws).length < count)
    (hrest : ∀ made m count, Reread (depth + links) node ws made m → ws.length < count →
      Yields limited n 4 m (commaRest self pos count links made) R) :
    Yields limited n 4 s (self .assignment >>= commaRest self pos count 0) R := by
  generalize hlevel : Level.expression links = level at h
  induction h generalizing links ws with
  | ofAssignment h =>
    cases hlevel
    refine .bind (hself .assignment _ _ s ws hs h hends) fun made m hread => ?_
    exact hrest made m count hread (by rw [List.length_append] at hcount; omega)
  | @comma _ _ _ _ links left right _ hroom hright ih =>
    cases hlevel
    rw [words_binary, List.append_assoc, List.cons_append] at hs hcount
    refine ih rfl hs hcount (fun made m count hread hcount => ?_) rfl
    obtain ⟨halike, hm⟩ := hread
    have hkind : m.current.kind = .comma := hm.kind
    cases count with
    | zero => cases hcount
    | succ count =>
      refine .kind hkind (.neg (by simp) (.enter hm hroom fun _ hopened => .neg (by simp) ?_))
      refine .advance hopened fun later hlater => .read hself hlater hright hends ?_
      rintro madeRight last ⟨hrightAlike, hlast⟩
      refine .bind (.made hlast rfl ?_) fun made final hmade => (hrest made final count hmade ?_).spare
        (by decide)
      · simp [halike, hrightAlike]
      · simp only [List.length_cons, List.length_append] at hcount
        omega
  | _ => cases hlevel

theorem yields_expression {links : Nat} (h : Phrase limited (.expression links) depth node)
    (hends : endsExpression (nextKind ws)) (hs : Ready depth s (words node ++ ws)) :
    Yields limited n 4 s (expression n self) (Reread depth node ws) := by
  have hends : endsAssignment (nextKind ws) ∧ nextKind ws ≠ .comma := by
    simpa [endsExpression] using hends
  refine .fuel hs fun hfuel => .here (yields_commas hself h hends.1 hs (by omega)
    fun made m count hread hcount => ?_)
  cases count with
  | zero => cases hcount
  | succ count =>
    exact .kind hread.ready.kind (.pos (by simpa using hends.2)
      (.leave hread.ready fun last hlast => .pure ⟨hread.alike, hlast⟩))

end

end ArrayLoops.Grammar
