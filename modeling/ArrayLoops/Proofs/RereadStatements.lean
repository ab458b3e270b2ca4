import ArrayLoops.Proofs.RereadExpressions

/-!
# Statements are read as they are written

One lemma for each production for statements, then the productions together, and files. Where an
`else` could belong to two statements, the phrase behind says that none is there.
-/

namespace ArrayLoops.Grammar

open Token (Kind)
open ArrayLoops.Tree (Node Shape)
open Spelling (sign)

variable {limited : Bool} {n slack depth : Nat} {s : State} {ws : List Spelling} {node : Node}

theorem startsStatement_ne {kind close : Kind} (h : startsStatement kind)
    (hc : startsStatement close = false) : kind ≠ close := by
  rintro rfl
  simp [h] at hc

section
variable {self : Productions} (hself : Rereads limited n self)
include hself

attribute [local simp] Shape.map Node.unplaced_mk

theorem yields_statementsOnto {close : Kind} {statements collected : List Node} {count : Nat}
    (hclose : startsStatement close = false) (helse : close ≠ .elseWord)
    (h : ∀ statement ∈ statements, Phrase limited .statement depth statement)
    (hs : Ready depth s (statements.flatMap words ++ ws)) (hnext : nextKind ws = close)
    (hcount : (statements.flatMap words ++ ws).length < count) :
    Yields limited n 8 s (statementsOnto close self count collected)
      (RereadAll depth (collected.reverse ++ statements) ws) := by
  induction statements generalizing s count collected with
  | nil =>
    cases count with
    | zero => cases hcount
    | succ count =>
      refine .kind hs.kind (.check hs.clean.exceeded (.pos ?_ (.pure ⟨by simp, hs⟩)))
      simp [hnext]
  | cons statement rest ih =>
    rw [List.flatMap_cons, List.append_assoc] at hs hcount
    have hphrase := h statement List.mem_cons_self
    have hrest : ∀ other ∈ rest, Phrase limited .statement depth other := fun other ho =>
      h other (List.mem_cons_of_mem _ ho)
    have hstarts : startsStatement (nextKind (words statement ++ (rest.flatMap words ++ ws))) :=
      hphrase.begins _
    have hbehind : nextKind (rest.flatMap words ++ ws) ≠ .elseWord := by
      cases rest with
      | nil => simpa [hnext] using helse
      | cons next more =>
        rw [List.flatMap_cons, List.append_assoc]
        exact startsStatement_ne ((hrest next List.mem_cons_self).begins _) rfl
    have hpos := List.length_pos_of_ne_nil hphrase.words_ne_nil
    cases count with
    | zero => cases hcount
    | succ count =>
      refine .kind hs.kind (.check hs.clean.exceeded (.neg ?_ (.here ?_)))
      · have hend : startsStatement .endOfFile = false := rfl
        simp [startsStatement_ne hstarts hclose, startsStatement_ne hstarts hend]
      have hstatement := hself .statement statement depth s _ hs hphrase fun _ => hbehind
      refine .rising fun hrising => .bindBefore (hstatement.spare (by decide)) ?_
      rintro made m hbefore ⟨halike, hm⟩
      rw [List.length_append] at hcount
      have hpassed : m.current.start ≠ s.current.start := hrising.start_ne hbefore (by
        simp only [hm.length, hs.length, List.length_append]
        omega)
      have hpresent : made.isPresent := by
        rw [← Node.isPresent_unplaced, halike, Node.isPresent_unplaced]
        exact hphrase.isPresent
      refine .here (.kind rfl (.neg (by simp [hpassed]) ?_))
      rw [if_pos hpresent]
      refine (ih hrest hm (by omega)).mono fun all last hall => ⟨hall.alike.trans ?_, hall.ready⟩
      simp [halike]

theorem yields_block (h : Phrase limited .block depth node) (hs : Ready depth s (words node ++ ws)) :
    Yields limited n slack s (block n self) (Reread depth node ws) := by
  cases h with
  | block h =>
    rw [words_block, between_append] at hs
    refine .here (.expect hs fun m hm => .fuel hm fun hfuel => .bind
      (yields_statementsOnto hself rfl nofun h hm rfl (by omega)) ?_)
    rintro made later ⟨halike, hlater⟩
    exact .expect hlater fun last hlast => .made hlast rfl (by simpa using halike)

theorem yields_declarationsOnto {declarations collected : List Node} {count : Nat}
    (hsome : declarations ≠ [])
    (h : ∀ declared ∈ declarations, Phrase limited .variable depth declared)
    (hs : Ready depth s (commas (declarations.map words) ++ sign .semicolon :: ws))
    (hcount : (commas (declarations.map words) ++ sign .semicolon :: ws).length ≤ count) :
    Yields limited n 8 s (declarationsOnto self count collected)
      (RereadAll depth (collected.reverse ++ declarations) (sign .semicolon :: ws)) := by
  induction declarations generalizing s count collected with
  | nil => exact absurd rfl hsome
  | cons declared rest ih =>
    rw [commas_cons] at hs hcount
    cases count with
    | zero => exact absurd hcount (Nat.not_le.mpr behindItem_length_pos)
    | succ count =>
      have hdeclared : Yields limited n 8 s (declaration self)
          (Reread depth declared (behindItem rest (sign .semicolon :: ws))) := by
        have hnext : nextKind (behindItem rest (sign .semicolon :: ws)) = .comma ∨
            nextKind (behindItem rest (sign .semicolon :: ws)) = .semicolon :=
          nextKind_behindItem rest ws
        cases h declared List.mem_cons_self with
        | «variable» hname hvalue =>
          rw [words_variable] at hs
          exact yields_binding hself (fun _ _ => rfl) hname hvalue (hnext.imp_right .inr) hs
      refine .bind hdeclared fun made m hread => ?_
      refine yields_moreItems (by decide) hread fun later hrest hlater => ?_
      exact ih hrest (fun other ho => h other (List.mem_cons_of_mem _ ho)) hlater
        (length_behindItem hrest hcount)

theorem yields_variableList (h : Phrase limited .variables depth node)
    (hs : Ready depth s (words node ++ sign .semicolon :: ws)) :
    Yields limited n slack s (variableList n self) (Reread depth node (sign .semicolon :: ws)) := by
  cases h with
  | @«variables» _ _ _ _ kind declarations hsome h =>
    rw [words_variables, List.cons_append] at hs
    have hkind : s.current.kind = declaringKind (declarationFlags kind) := hs.kind
    refine .current (.advance hs fun m hm => .fuel hm fun hfuel => .bind
      (yields_declarationsOnto hself hsome h hm (by omega)) ?_)
    rintro made later ⟨halike, hlater⟩
    refine .made hlater ?_ (by simpa using halike)
    rw [hkind]
    cases kind <;> rfl

theorem yields_optionalExpression {close : Kind} {links : Nat}
    (h : node.isPresent → Phrase limited (.expression links) depth node)
    (hclose : startsExpression close = false) (hends : endsExpression close)
    (hs : Ready depth s (words node ++ sign close :: ws)) :
    Yields limited n 8 s (optionalExpression self close) (Reread depth node (sign close :: ws)) := by
  cases node with
  | absent => exact .kind hs.kind (.pos (by simp) (.pure ⟨rfl, hs⟩))
  | mk info shape =>
    have h := h rfl
    have hread := hself .expression _ depth s (sign close :: ws) hs ⟨links, h⟩ hends
    refine .kind hs.kind (.neg ?_ (hread.spare (by decide)))
    simpa using startsExpression_ne (h.begins _) hclose

theorem yields_condition {links : Nat} (h : Phrase limited (.expression links) depth node)
    (hs : Ready depth s (between .openParen .closeParen (words node) ++ ws)) :
    Yields limited n slack s (condition self) (Reread depth node ws) := by
  rw [between_append] at hs
  refine .expect hs fun m hm => .read hself hm ⟨links, h⟩ rfl ?_
  rintro made later ⟨halike, hlater⟩
  exact .expect hlater fun last hlast => .pure ⟨halike, hlast⟩

theorem yields_functionDeclaration {id pos fin : Nat} {name body : Node} {parameters : List Node}
    (hname : Leaf isBinding name)
    (hparameters : ∀ parameter ∈ parameters, Phrase limited .parameter depth parameter)
    (hbody : Phrase limited .block depth body)
    (hs : Ready depth s
      (words (.mk ⟨id, pos, fin, {}⟩ (.function .declaration name parameters body)) ++ ws)) :
    Yields limited n slack s (functionDeclaration n self)
      (Reread depth (.mk ⟨id, pos, fin, {}⟩ (.function .declaration name parameters body)) ws) := by
  rw [words_function (by decide)] at hs
  simp only [List.cons_append, List.append_assoc] at hs
  exact .here (.expect hs fun m hm => .bind (yields_bindingName hname hm) fun _ _ =>
    yields_functionRest hself hparameters hbody)

theorem yields_ifStatement {id pos fin links : Nat} {condition thenBranch elseBranch : Node}
    (hcondition : Phrase limited (.expression links) depth condition)
    (hthen : Phrase limited .statement depth thenBranch)
    (hclosed : elseBranch.isPresent → isOpenIf thenBranch = false)
    (helse : elseBranch.isPresent → Phrase limited .statement depth elseBranch)
    (hnext : isOpenIf (.mk ⟨id, pos, fin, {}⟩ (.branch condition thenBranch elseBranch)) →
      nextKind ws ≠ .elseWord)
    (hs : Ready depth s
      (words (.mk ⟨id, pos, fin, {}⟩ (.branch condition thenBranch elseBranch)) ++ ws)) :
    Yields limited n slack s (ifStatement self)
      (Reread depth (.mk ⟨id, pos, fin, {}⟩ (.branch condition thenBranch elseBranch)) ws) := by
  simp only [words_branch, List.cons_append, List.append_assoc] at hs
  refine .here (.expect hs fun m hm => .bind (yields_condition hself hcondition hm) ?_)
  rintro madeCondition later ⟨hconditionAlike, hlater⟩
  refine .read hself hlater hthen ?_ ?_
  · intro ho
    cases elseBranch with
    | absent => exact hnext rfl
    | mk => simp [hclosed rfl] at ho
  rintro madeThen last ⟨hthenAlike, hlast⟩
  cases elseBranch with
  | absent =>
    refine .refused ?_ (.made hlast rfl ?_)
    · rw [hlast.kind]
      exact hnext rfl
    · simp only [Shape.map, hconditionAlike, hthenAlike]
      rfl
  | mk info shape =>
    simp only [announced, Node.isPresent, if_true, List.cons_append] at hlast
    refine .accepted hlast fun final hfinal => .read hself hfinal (helse rfl) (fun ho => hnext ?_) ?_
    · simp [isOpenIf, ho]
    rintro madeElse end' ⟨helseAlike, hend⟩
    refine .made hend rfl ?_
    simp [hconditionAlike, hthenAlike, helseAlike]

theorem yields_forStatement {id pos fin first second third : Nat}
    {initializer condition update body : Node}
    (hlist : initializer.isKind .variableList → Phrase limited .variables depth initializer)
    (hfirst : initializer.isPresent → initializer.isKind .variableList = false →
      Phrase limited (.expression first) depth initializer)
    (hcondition : condition.isPresent → Phrase limited (.expression second) depth condition)
    (hupdate : update.isPresent → Phrase limited (.expression third) depth update)
    (hbody : Phrase limited .statement depth body)
    (hnext : isOpenIf body → nextKind ws ≠ .elseWord)
    (hs : Ready depth s (words (.mk ⟨id, pos, fin, {}⟩
      (.loop .for initializer condition update body)) ++ ws)) :
    Yields limited n slack s (forStatement n self) (Reread depth (.mk ⟨id, pos, fin, {}⟩
      (.loop .for initializer condition update body)) ws) := by
  simp only [words_for, between_append, List.cons_append, List.append_assoc] at hs
  refine .here (.expect hs fun m hm => .expect hm fun later hlater => ?_)
  let rest := forRest self s.current.start
  have hrest : ∀ made last, Reread depth initializer (sign .semicolon :: (words condition ++
      sign .semicolon :: (words update ++ sign .closeParen :: (words body ++ ws)))) made
        last → Yields limited n 8 last (rest made) (Reread depth (.mk ⟨id, pos, fin, {}⟩
          (.loop .for initializer condition update body)) ws) := by
    rintro made last ⟨halike, hlast⟩
    have hsemicolon : last.current.kind = .semicolon := hlast.kind
    refine .current (.neg (by simp [hsemicolon]) (.expect hlast fun m₁ hm₁ => ?_))
    refine .bind (yields_optionalExpression hself hcondition rfl rfl hm₁) ?_
    rintro madeCondition m₂ ⟨hconditionAlike, hm₂⟩
    refine .expect hm₂ fun m₃ hm₃ => .bind (yields_optionalExpression hself hupdate rfl rfl hm₃) ?_
    rintro madeUpdate m₄ ⟨hupdateAlike, hm₄⟩
    refine .expect hm₄ fun m₅ hm₅ => .read hself hm₅ hbody hnext ?_
    rintro madeBody m₆ ⟨hbodyAlike, hm₆⟩
    refine .made hm₆ rfl ?_
    simp [halike, hconditionAlike, hupdateAlike, hbodyAlike]
  have hdeclared : initializer.isKind .variableList →
      Yields limited n 8 later (variableList n self >>= rest) (Reread depth (.mk ⟨id, pos, fin, {}⟩
        (.loop .for initializer condition update body)) ws) := fun hkind =>
    .bind (yields_variableList hself (hlist hkind) hlater) hrest
  have hexpression : initializer.isKind .variableList = false →
      Yields limited n 8 later (optionalExpression self .semicolon >>= rest)
        (Reread depth (.mk ⟨id, pos, fin, {}⟩ (.loop .for initializer condition update body)) ws) :=
    fun hkind => .bind (yields_optionalExpression hself (fun hpresent => hfirst hpresent hkind) rfl rfl
      hlater) hrest
  refine .kind hlater.kind ?_
  cases hkind : initializer.isKind .variableList with
  | true =>
    have hdeclaring := (hlist hkind).begins (sign .semicolon :: (words condition ++
      sign .semicolon :: (words update ++ sign .closeParen :: (words body ++ ws))))
    generalize nextKind (words initializer ++ _) = kind at hdeclaring ⊢
    cases kind with
    | varWord | letWord | constWord => exact hdeclared hkind
    | _ => cases hdeclaring
  | false =>
    have hother : isDeclaring (nextKind (words initializer ++ sign .semicolon :: (words condition ++
        sign .semicolon :: (words update ++ sign .closeParen :: (words body ++ ws))))) = false := by
      cases initializer with
      | absent => rfl
      | mk =>
        have hstarts : ∀ kind, startsExpression kind → isDeclaring kind = false := by
          intro kind
          cases kind <;> decide
        exact hstarts _ ((hfirst rfl hkind).begins _)
    generalize nextKind (words initializer ++ _) = kind at hother ⊢
    cases kind with
    | varWord | letWord | constWord => cases hother
    | _ => exact hexpression hkind

theorem yields_whileStatement {id pos fin links : Nat} {condition body : Node}
    (hcondition : Phrase limited (.expression links) depth condition)
    (hbody : Phrase limited .statement depth body)
    (hnext : isOpenIf body → nextKind ws ≠ .elseWord)
    (hs : Ready depth s (words (.mk ⟨id, pos, fin, {}⟩
      (.loop .while .absent condition .absent body)) ++ ws)) :
    Yields limited n slack s (whileStatement self) (Reread depth (.mk ⟨id, pos, fin, {}⟩
      (.loop .while .absent condition .absent body)) ws) := by
  simp only [words_while, List.cons_append, List.append_assoc] at hs
  refine .here (.expect hs fun m hm => .bind (yields_condition hself hcondition hm) ?_)
  rintro madeCondition later ⟨hconditionAlike, hlater⟩
  refine .read hself hlater hbody hnext ?_
  rintro madeBody last ⟨hbodyAlike, hlast⟩
  refine .made hlast rfl ?_
  simp [hconditionAlike, hbodyAlike]

theorem yields_doStatement {id pos fin links : Nat} {condition body : Node}
    (hcondition : Phrase limited (.expression links) depth condition)
    (hbody : Phrase limited .statement depth body)
    (hs : Ready depth s (words (.mk ⟨id, pos, fin, {}⟩
      (.loop .doWhile .absent condition .absent body)) ++ ws)) :
    Yields limited n slack s (doStatement self) (Reread depth (.mk ⟨id, pos, fin, {}⟩
      (.loop .doWhile .absent condition .absent body)) ws) := by
  simp only [words_doWhile, List.cons_append, List.append_assoc, List.nil_append] at hs
  refine .here (.expect hs fun m hm => .read hself hm hbody (fun _ => by simp) ?_)
  rintro madeBody later ⟨hbodyAlike, hlater⟩
  refine .expect hlater fun last hlast => .bind (yields_condition hself hcondition hlast) ?_
  rintro madeCondition final ⟨hconditionAlike, hfinal⟩
  have hend : Yields limited n 8 final (accept .semicolon >>= fun _ => Grammar.node s.current.start
      (.loop .doWhile .absent madeCondition .absent madeBody)) (Reread depth (.mk ⟨id, pos, fin, {}⟩
        (.loop .doWhile .absent condition .absent body)) ws) := by
    refine .accepted hfinal fun end' hend => .made hend rfl ?_
    simp [hconditionAlike, hbodyAlike]
  exact hend

theorem yields_exit {id pos fin links : Nat} {isThrow : Bool} {value : Node}
    (hthrow : isThrow → value.isPresent)
    (hvalue : value.isPresent → Phrase limited (.expression links) depth value)
    (hs : Ready depth s (words (.mk ⟨id, pos, fin, {}⟩ (.exit isThrow value)) ++ ws)) :
    Yields limited n slack s (if isThrow then throwStatement self else returnStatement self)
      (Reread depth (.mk ⟨id, pos, fin, {}⟩ (.exit isThrow value)) ws) := by
  simp only [words_exit, List.cons_append, List.append_assoc, List.nil_append] at hs
  have hend : ∀ made m, Reread depth value (sign .semicolon :: ws) made m →
      Yields limited n 8 m (endStatement >>= fun _ => Grammar.node s.current.start (.exit isThrow made))
        (Reread depth (.mk ⟨id, pos, fin, {}⟩ (.exit isThrow value)) ws) := by
    rintro made m ⟨halike, hm⟩
    refine .endStatement hm fun later hlater => .made hlater rfl ?_
    simp [halike]
  cases value with
  | absent =>
    cases isThrow with
    | true => cases hthrow rfl
    | false =>
      refine .here (.advance hs fun m hm => ?_)
      have hsemicolon : m.current.kind = .semicolon := hm.kind
      exact .check (by simp [State.canEndStatement, hsemicolon]) (.pos rfl (hend .absent m ⟨rfl, hm⟩))
  | mk info shape =>
    have hvalue := hvalue rfl
    have hexpression : ∀ m, Ready depth m (words (.mk info shape) ++ sign .semicolon :: ws) →
        Yields limited n 8 m (self .expression >>= fun made => endStatement >>= fun _ =>
          Grammar.node s.current.start (.exit isThrow made))
          (Reread depth (.mk ⟨id, pos, fin, {}⟩ (.exit isThrow (.mk info shape))) ws) :=
      fun m hm => .read hself hm ⟨links, hvalue⟩ rfl hend
    cases isThrow with
    | true =>
      refine .here (.advance hs fun m hm => ?_)
      obtain ⟨hm, hline⟩ := hm.unjoinFirst hvalue.words_ne_nil
      exact .current (.neg (by simp [hline]) (hexpression m hm))
    | false =>
      refine .here (.advance hs fun m hm => ?_)
      obtain ⟨hm, hline⟩ := hm.unjoinFirst hvalue.words_ne_nil
      have hgoes : m.canEndStatement = false := by
        have hstarts := hvalue.begins (sign .semicolon :: ws)
        rw [← hm.kind] at hstarts
        have hends : ∀ kind, startsExpression kind → kind ≠ .semicolon ∧ kind ≠ .closeBrace ∧
            kind ≠ .endOfFile := by
          intro kind
          cases kind <;> decide
        simp [State.canEndStatement, hline, hends _ hstarts]
      exact .check hgoes (.neg (by simp) (hexpression m hm))

omit hself in
theorem startsLet_of_words {list : Node} {inside : Nat} (h : Phrase limited .variables inside list)
    (hs : Ready depth s (words list ++ ws)) : s.startsLet = true := by
  cases h with
  | «variables» hsome h =>
    obtain ⟨first, rest, rfl⟩ := List.exists_cons_of_ne_nil hsome
    rw [words_variables, List.cons_append, commas_cons] at hs
    obtain ⟨token, back, hcons, -, hback⟩ := SpellAll.first hs.spells
    obtain ⟨-, rfl⟩ := List.cons.inj hcons
    have hname := (h first List.mem_cons_self).begins (behindItem rest ws)
    unfold State.startsLet
    generalize words first ++ behindItem rest ws = all at hback hname
    cases all with
    | nil => cases hname
    | cons word others =>
      obtain ⟨next, ahead, hahead, hnext, -⟩ := SpellAll.first hback
      rw [hahead, List.head?_cons, Option.any_some, hnext.kind]
      exact hname

theorem yields_variableStatement {id pos fin : Nat} {list : Node}
    (h : Phrase limited .variables depth list)
    (hs : Ready depth s (words list ++ sign .semicolon :: ws)) :
    Yields limited n slack s (variableStatement n self)
      (Reread depth (.mk ⟨id, pos, fin, {}⟩ (.variables true [list])) ws) := by
  refine .here (.bind (yields_variableList hself h hs) ?_)
  rintro made m ⟨halike, hm⟩
  refine .endStatement hm fun later hlater => .made hlater rfl ?_
  simp [halike]

theorem yields_expressionStatement {id pos fin links : Nat} {expression : Node}
    (h : Phrase limited (.expression links) depth expression)
    (hs : Ready depth s (words expression ++ sign .semicolon :: ws)) :
    Yields limited n 5 s (expressionStatement self)
      (Reread depth (.mk ⟨id, pos, fin, {}⟩ (.evaluate expression)) ws) := by
  refine .here (.bind (hself .expression expression depth s _ hs ⟨links, h⟩ rfl) ?_)
  rintro made m ⟨halike, hm⟩
  refine .endStatement hm fun later hlater => .made hlater rfl ?_
  simp [halike]

omit hself in
theorem yields_jump {id pos fin : Nat} {kind : Tree.Kind}
    (hkind : kind = .breakStatement ∨ kind = .continueStatement)
    (hs : Ready depth s (words (.mk ⟨id, pos, fin, {}⟩ (.bare kind)) ++ ws)) :
    Yields limited n slack s (jump kind) (Reread depth (.mk ⟨id, pos, fin, {}⟩ (.bare kind)) ws) := by
  have hwords : ∃ word, words (.mk ⟨id, pos, fin, {}⟩ (.bare kind)) = [word, sign .semicolon] := by
    obtain rfl | rfl := hkind <;> exact ⟨_, words_mk _ _⟩
  obtain ⟨word, hwords⟩ := hwords
  rw [hwords] at hs
  refine .here (.advance hs fun m hm => ?_)
  have hsemicolon : m.current.kind = .semicolon := hm.kind
  refine .current (.neg (by simp [hsemicolon]) (.endStatement hm fun later hlater => ?_))
  exact .made hlater rfl rfl

theorem yields_statementInside (h : Phrase limited .statement depth node)
    (hnext : isOpenIf node → nextKind ws ≠ .elseWord) (hs : Ready (depth + 1) s (words node ++ ws)) :
    Yields limited n 5 s (statementInside n self) (Reread (depth + 1) node ws) := by
  have hkind := hs.kind
  cases h with
  | ofBlock _ h =>
    have hbrace : s.current.kind = .openBrace := hkind.trans (beq_iff_eq.mp (h.begins ws))
    exact .kind hbrace ((hself .block node _ s ws hs h trivial).spare (by decide))
  | @variableStatement _ id pos fin list _ h =>
    simp only [words_variableStatement, List.append_assoc, List.cons_append, List.nil_append] at hs hkind
    have hdeclaring := h.begins (sign .semicolon :: ws)
    have hstatement : Yields limited n 5 s (variableStatement n self)
        (Reread (depth + 1) (.mk ⟨id, pos, fin, {}⟩ (.variables true [list])) ws) :=
      yields_variableStatement hself h hs
    rw [← hkind] at hdeclaring
    refine .kind rfl ?_
    generalize s.current.kind = kind at hdeclaring ⊢
    cases kind with
    | varWord | constWord => exact hstatement
    | letWord => exact .check (startsLet_of_words h hs) (.pos rfl hstatement)
    | _ => cases hdeclaring
  | functionDeclaration _ hname hparameters hbody =>
    rw [words_function (by decide)] at hkind
    exact .kind hkind (yields_functionDeclaration hself hname hparameters hbody hs)
  | branch _ hcondition hthen hclosed helse =>
    exact .kind hkind (yields_ifStatement hself hcondition hthen hclosed helse hnext hs)
  | forLoop _ hlist hfirst hcondition hupdate hbody =>
    exact .kind hkind (yields_forStatement hself hlist hfirst hcondition hupdate hbody hnext hs)
  | whileLoop _ hcondition hbody =>
    exact .kind hkind (yields_whileStatement hself hcondition hbody hnext hs)
  | doLoop _ hcondition hbody => exact .kind hkind (yields_doStatement hself hcondition hbody hs)
  | @exit _ _ _ _ _ isThrow _ _ hthrow hvalue =>
    have hexit : Yields limited n 5 s _ _ := yields_exit hself hthrow hvalue hs
    cases isThrow with
    | true => exact .kind hkind hexit
    | false => exact .kind hkind hexit
  | jump _ hjump =>
    obtain rfl | rfl | rfl := hjump
    · exact .kind hkind (yields_jump (.inl rfl) hs)
    · exact .kind hkind (yields_jump (.inr rfl) hs)
    · rw [words_mk] at hs
      exact .kind hkind (.here (.advance hs fun m hm => .made hm rfl rfl))
  | @evaluate _ id pos fin _ expression _ h hbrace hfunction =>
    simp only [words_evaluate, List.append_assoc, List.cons_append, List.nil_append] at hs hkind
    rw [firstKind?_eq h.words_ne_nil (sign .semicolon :: ws), ← hkind] at hbrace hfunction
    have hstarts := h.begins (sign .semicolon :: ws)
    rw [← hkind] at hstarts
    have hstatement : Yields limited n 5 s (do
        if ← check State.startsExpression then expressionStatement self
        else statementInside.noStatement)
        (Reread (depth + 1) (.mk ⟨id, pos, fin, {}⟩ (.evaluate expression)) ws) :=
      .check ((startsExpression_eq s).trans hstarts) (.pos rfl (yields_expressionStatement hself h hs))
    refine .kind rfl ?_
    generalize s.current.kind = kind at hstarts hbrace hfunction ⊢
    cases kind with
    | openBrace => exact absurd rfl hbrace
    | functionWord => exact absurd rfl hfunction
    | varWord | letWord | constWord | ifWord | forWord | whileWord | doWord | returnWord | throwWord
    | breakWord | continueWord | semicolon => cases hstarts
    | _ => exact hstatement

theorem yields_statement (h : Phrase limited .statement depth node)
    (hnext : isOpenIf node → nextKind ws ≠ .elseWord) (hs : Ready depth s (words node ++ ws)) :
    Yields limited n 5 s (statement n self) (Reread depth node ws) := by
  have hroom : Room limited depth := by
    cases h <;> assumption
  refine .enter hs hroom fun m hm => .pos rfl (.bind (yields_statementInside hself h hnext hm) ?_)
  rintro made later ⟨halike, hlater⟩
  exact .leave hlater fun last hlast => .pure ⟨halike, hlast⟩

end

theorem rereads_productions (limited : Bool) (n : Nat) : Rereads limited n (productions n) := by
  induction n with
  | zero =>
    intro goal node depth s ws hs _ _ _ hfuel
    rw [hs.length] at hfuel
    omega
  | succ n ih =>
    intro goal node depth s ws hs hfits hends
    have hproduce : Yields limited n goal.rank s (produce n (productions n) goal)
        (Reread depth node ws) := by
      cases goal with
      | statement => exact yields_statement ih hfits hends hs
      | block => exact yields_block ih hfits hs
      | expression =>
        obtain ⟨links, hfits⟩ := hfits
        exact yields_expression ih hfits hends hs
      | assignment => exact yields_assignment ih hfits hends hs
      | binary least =>
        obtain ⟨links, hfits⟩ := hfits
        exact yields_binary ih hfits hends.1 hends.2 hs
      | unary => exact yields_unary ih hfits hends hs
      | new => exact yields_newExpression ih hfits hends hs
    exact fun hrising hfuel => hproduce hrising (by omega)

theorem ready_start {tokens : List Token} (h : SpellAll tokens (ws ++ [.endOfFile])) :
    Ready 0 (.start tokens) ws := by
  cases tokens with
  | nil => cases ws <;> cases h
  | cons token rest =>
    have hquiet : token.complaints = [] := by
      cases ws <;> cases h <;> exact ‹Spells token _›.quiet
    exact ⟨⟨rfl, by simp [State.start, hquiet], rfl⟩, h, start_depth _⟩

/-- The tree of a text that spells the words of a file, unless these are nested too deep. -/
theorem parse_words {name text : String} {id fin : Nat} {statements : List Node}
    (h : ∀ statement ∈ statements, Phrase limited .statement 0 statement)
    (hspells : SpellAll (Token.list text) (statements.flatMap words ++ [.endOfFile]))
    (hrising : ((Token.list text).map Token.start).Pairwise (· < ·)) :
    (parse name text).complaints = [] ∧ (parse name text).root.unplaced =
        Node.unplaced (.mk ⟨id, 0, fin, {}⟩ (.file name statements)) ∨
      limited = false ∧
        ∃ start length, (parse name text).complaints = [⟨start, length, .nestingTooDeep⟩] := by
  let s := State.start (Token.list text)
  let n := fuelFor (Token.list text)
  let p := statementList n .endOfFile (productions n)
  have htokens : s.tokens = Token.list text := tokens_start text
  have hs : Ready 0 s (statements.flatMap words ++ []) := by
    rw [List.append_nil]
    exact ready_start hspells
  have hlength := hs.length
  rw [htokens] at hlength
  have hyields : Yields limited n 8 s p (RereadAll 0 statements []) :=
    yields_statementsOnto (rereads_productions limited n) rfl nofun h hs rfl
      (by simp only [n, fuelFor]; omega)
  have hrising : Rising s := by rwa [Rising, htokens]
  have hcomplaints : (parse name text).complaints =
      sortByStart ((p s).2.complaints.reverse ++ (p s).2.lexical.reverse) := rfl
  rw [hcomplaints]
  obtain ⟨halike, ⟨hclean, -⟩⟩ | ⟨hunlimited, hgone⟩ :=
    hyields hrising (by rw [htokens]; simp only [n, fuelFor]; omega)
  · refine .inl ⟨by rw [hclean.complaints, hclean.lexical]; rfl, ?_⟩
    change Node.unplaced (.mk ⟨_, 0, _, {}⟩ (.file name (p s).1)) = _
    rw [Node.unplaced_mk, Node.unplaced_mk]
    simp only [Shape.map, halike]
  · obtain ⟨start, length, hlimit⟩ := hgone.complaints
    refine .inr ⟨hunlimited, start, length, ?_⟩
    rw [hlimit, hgone.quiet.1]
    rfl

end ArrayLoops.Grammar
