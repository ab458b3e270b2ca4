import ArrayLoops.Proofs.ParsedExpressions

/-!
# Statements of a parse without complaints

What a production for statements makes is a phrase, and no `else` follows that an `if` could take. With
the expressions this gives all productions, by induction on the fuel, and with them the file.
-/

namespace ArrayLoops.Grammar

open Token (Kind)
open ArrayLoops.Tree (Flags Info Node Shape)

variable {n slack depth : Nat} {s : State} {node : Node}

structure Stated (depth : Nat) (s : State) (node : Node) (later : State) : Prop where
  phrase : Phrase true .statement depth node
  begins : Begins s node
  next : isOpenIf node → later.current.kind ≠ .elseWord

theorem gives_endStatement : GivesAt n slack depth depth s endStatement fun _ _ => True := by
  refine .accept rfl (fun _ => .pure trivial) fun hne =>
    .check (.ite (fun _ => .pure trivial) fun _ => ?_)
  have habsurd : GivesAt n slack depth depth s (discard (expect .semicolon) >>= pure) fun _ _ => True :=
    .expect rfl fun heq => absurd heq hne
  exact habsurd

section
variable {self : Productions} (hself : Reads n self)
include hself

attribute [local simp] Shape.map firstKind? words_mk wordsNode

theorem gives_statementsOnto {close : Kind} (count : Nat) {statements : List Node}
    (h : ∀ statement ∈ statements, Phrase true .statement depth statement) :
    GivesAt n 8 depth depth s (statementsOnto close self count statements) fun statements _ =>
      ∀ statement ∈ statements, Phrase true .statement depth statement := by
  induction count generalizing s statements with
  | zero => exact .exhaust (gives_reverse h)
  | succ count ih =>
    refine .kind (.check (.ite (fun _ => gives_reverse h) fun _ => .here ?_))
    refine .bind (hself.part .statement) fun statement m hstatement => ?_
    have hall : ∀ other ∈ if statement.isPresent then statement :: statements else statements,
        Phrase true .statement depth other := by
      split
      · exact List.forall_mem_cons.mpr ⟨hstatement, h⟩
      · exact h
    refine .here (.kind (.ite (fun hsame => .advance ?_ (ih hall)) fun _ => ih hall))
    rw [Bool.and_eq_true] at hsame
    simpa using hsame.2

theorem gives_block : GivesAt n slack depth depth s (block n self) fun node _ =>
    Made (Phrase true .block depth) s node := by
  refine .here (.expect rfl fun hkind => .bind (gives_statementsOnto hself n (by simp)) ?_)
  refine fun statements m hstatements => .expect rfl fun _ => .node fun id fin arena =>
    ⟨.block hstatements, .of_first ?_⟩
  rw [hkind]
  simp [between]

theorem gives_declaration : GivesAt n slack depth depth s (declaration self) fun node _ =>
    Phrase true .variable depth node :=
  .here (.bind gives_bindingName fun _ _ hname => .bind (gives_initializer hself) fun _ _ hvalue =>
    .node fun _ _ _ => .variable hname hvalue)

theorem gives_declarationsOnto (count : Nat) {declarations : List Node}
    (hcount : declarations = [] → count ≠ 0)
    (h : ∀ declared ∈ declarations, Phrase true .variable depth declared) :
    GivesAt n 8 depth depth s (declarationsOnto self count declarations) fun declarations _ =>
      declarations ≠ [] ∧ ∀ declared ∈ declarations, Phrase true .variable depth declared := by
  induction count generalizing s declarations with
  | zero =>
    exact .exhaust (.pure ⟨by simpa using fun hnone => hcount hnone rfl,
      fun declared hd => h declared (List.mem_reverse.mp hd)⟩)
  | succ count ih =>
    refine .bind (gives_declaration hself) fun node m hnode => ?_
    have hall := List.forall_mem_cons.mpr ⟨hnode, h⟩
    exact .accept rfl (fun _ => ih nofun hall) fun _ =>
      .pure ⟨by simp, fun declared hd => hall declared (List.mem_reverse.mp hd)⟩

theorem gives_variableList
    (hk : s.current.kind = .varWord ∨ s.current.kind = .letWord ∨ s.current.kind = .constWord) :
    GivesAt n slack depth depth s (variableList n self) fun node _ =>
      Made (Phrase true .variables depth) s node := by
  have hne : s.current.kind ≠ .endOfFile := by
    intro heq
    simp [heq] at hk
  refine .current (.advance hne (.fuel fun hlength => ?_))
  have hn : n ≠ 0 := by
    intro hzero
    simp [hzero, State.tokens] at hlength
  refine .bind (gives_declarationsOnto hself n (fun _ => hn) (by simp)) ?_
  rintro declarations m ⟨hsome, hall⟩
  refine .node fun id fin arena => ⟨.variables hsome hall, .of_first ?_⟩
  rw [firstKind?, words_variables]
  obtain hk | hk | hk := hk <;> simp [hk, declarationFlags, declaringKind]

theorem gives_condition : GivesAt n slack depth depth s (condition self) fun node _ =>
    ∃ links, Phrase true (.expression links) depth node :=
  .expect rfl fun _ => .bind (hself.part .expression) fun _ _ hnode =>
    .expect rfl fun _ => .pure hnode

theorem gives_optionalExpression {close : Kind} :
    GivesAt n 8 depth depth s (optionalExpression self close) fun node _ =>
      ∃ links, node.isPresent → Phrase true (.expression links) depth node :=
  .kind (.ite (fun _ => .pure ⟨0, nofun⟩) fun _ => (hself.part .expression).mono fun _ _ h =>
    h.imp fun _ hnode _ => hnode)

-- From here on the statement's own level is open, so that its parts are one level deeper.
variable (hroom : Room true depth)
include hroom

theorem gives_variableStatement
    (hk : s.current.kind = .varWord ∨ s.current.kind = .letWord ∨ s.current.kind = .constWord) :
    GivesAt n slack (depth + 1) (depth + 1) s (variableStatement n self) (Stated depth s) :=
  .here (.bind (gives_variableList hself hk) fun _ _ hlist => .bind gives_endStatement fun _ _ _ =>
    .node fun _ _ _ => ⟨.variableStatement hroom hlist.phrase,
      hlist.begins.of_left hlist.phrase.words_ne_nil words_variableStatement, nofun⟩)

theorem gives_functionDeclaration :
    GivesAt n slack (depth + 1) (depth + 1) s (functionDeclaration n self) (Stated depth s) := by
  refine .here (.expect rfl fun hkind => .bind gives_bindingName fun name m hname => ?_)
  refine .bind (gives_parameterList hself n) fun parameters later hparameters =>
    .bind (hself.part .block) fun body last hbody => .node fun id fin arena =>
      ⟨.functionDeclaration hroom hname hparameters hbody, .of_first ?_, nofun⟩
  rw [hkind]
  simp

theorem gives_ifStatement :
    GivesAt n slack (depth + 1) (depth + 1) s (ifStatement self) (Stated depth s) := by
  refine .here (.expect rfl fun hkind => .bind (gives_condition hself) ?_)
  rintro test m ⟨links, htest⟩
  refine .bind ((hself .statement _ _).spare (by decide)) ?_
  rintro thenBranch later ⟨⟨hthen, -⟩, hnext⟩
  have hfirst : ∀ info elseBranch,
      firstKind? (.mk info (.branch test thenBranch elseBranch)) = some s.current.kind := by
    intro info elseBranch
    rw [hkind]
    simp [between]
  refine .accept rfl (fun helse => .bind ((hself .statement _ _).spare (by decide)) ?_) fun hne =>
    .node fun id fin arena =>
      ⟨.branch hroom htest hthen (fun h => by cases h) (fun h => by cases h), .of_first (hfirst _ _),
        fun _ => hne⟩
  rintro elseBranch last ⟨⟨helseBranch, -⟩, hnextElse⟩
  have hclosed : isOpenIf thenBranch = false := by
    cases ho : isOpenIf thenBranch with
    | false => rfl
    | true => exact absurd helse (hnext ho)
  refine .node fun id fin arena => ⟨.branch hroom htest hthen (fun _ => hclosed)
    (fun _ => helseBranch), .of_first (hfirst _ _), fun ho => hnextElse ?_⟩
  rw [isOpenIf, Bool.or_eq_true] at ho
  exact ho.resolve_left (by simp [Phrase.isPresent helseBranch])

theorem gives_counterRest {pos first : Nat} {start : Node}
    (hlist : start.isKind .variableList → Phrase true .variables (depth + 1) start)
    (hexpression : start.isPresent → start.isKind .variableList = false →
      Phrase true (.expression first) (depth + 1) start) :
    GivesAt n slack (depth + 1) (depth + 1) s (counterRest self pos start) fun node m =>
      Phrase true .statement depth node ∧ firstKind? node = some .forWord ∧
        (isOpenIf node → m.current.kind ≠ .elseWord) := by
  refine .expect rfl fun _ => .bind (gives_optionalExpression hself) ?_
  rintro test later ⟨second, htest⟩
  refine .expect rfl fun _ => .bind (gives_optionalExpression hself) ?_
  rintro update last ⟨third, hupdate⟩
  refine .expect rfl fun _ => .bind ((hself .statement _ _).spare (by decide)) ?_
  rintro body final ⟨⟨hbody, -⟩, hnext⟩
  refine .node fun id fin arena => ⟨.forLoop hroom hlist hexpression htest hupdate hbody, ?_, hnext⟩
  simp [between]

theorem gives_forStatement :
    GivesAt n slack (depth + 1) (depth + 1) s (forStatement n self) (Stated depth s) := by
  refine .here (.expect rfl fun hkind => .expect rfl fun _ => .kind ?_)
  let rest := forRest self s.current.start
  have hrest : ∀ start m first,
      (start.isKind .variableList → Phrase true .variables (depth + 1) start) →
      (start.isPresent → start.isKind .variableList = false →
        Phrase true (.expression first) (depth + 1) start) →
      GivesAt n 8 (depth + 1) (depth + 1) m (rest start) (Stated depth s) := by
    refine fun start m first hlist hexpression => .current (.ite (fun _ => .complain) fun _ => ?_)
    refine (gives_counterRest hself hroom hlist hexpression).mono fun node later h => ?_
    exact ⟨h.1, .of_first (hkind ▸ h.2.1), h.2.2⟩
  have hlist : s.advance.advance.current.kind = .varWord ∨
      s.advance.advance.current.kind = .letWord ∨ s.advance.advance.current.kind = .constWord →
      GivesAt n 8 (depth + 1) (depth + 1) s.advance.advance (variableList n self >>= rest)
        (Stated depth s) := by
    refine fun hk => .bind (gives_variableList hself hk) ?_
    rintro start m ⟨hstart, -⟩
    refine hrest start m 0 (fun _ => hstart) fun _ hother => ?_
    cases hstart with
    | «variables» => cases hother
  have hexpression : GivesAt n 8 (depth + 1) (depth + 1) s.advance.advance
      (optionalExpression self .semicolon >>= rest) (Stated depth s) := by
    refine .bind (gives_optionalExpression hself) ?_
    rintro start m ⟨first, hstart⟩
    refine hrest start m first (fun hlist => ?_) fun hpresent _ => hstart hpresent
    cases start with
    | absent => cases hlist
    | mk => exact absurd ((hstart rfl).isKind_variableList nofun) (by simp [hlist])
  generalize hk : s.advance.advance.current.kind = k at hlist ⊢
  cases k with
  | varWord | letWord | constWord => exact hlist (by simp)
  | _ => exact hexpression

theorem gives_whileStatement :
    GivesAt n slack (depth + 1) (depth + 1) s (whileStatement self) (Stated depth s) := by
  refine .here (.expect rfl fun hkind => .bind (gives_condition hself) ?_)
  rintro test m ⟨links, htest⟩
  refine .bind ((hself .statement _ _).spare (by decide)) ?_
  rintro body later ⟨⟨hbody, -⟩, hnext⟩
  refine .node fun id fin arena => ⟨.whileLoop hroom htest hbody, .of_first ?_, hnext⟩
  rw [hkind]
  simp [between]

theorem gives_doStatement :
    GivesAt n slack (depth + 1) (depth + 1) s (doStatement self) (Stated depth s) := by
  refine .here (.expect rfl fun hkind => .bind (hself.part .statement) fun body m hbody => ?_)
  refine .expect rfl fun _ => .bind (gives_condition hself) ?_
  rintro test later ⟨links, htest⟩
  have hend : ∀ last : State, GivesAt n 8 (depth + 1) (depth + 1) last
      (node s.current.start (.loop .doWhile .absent test .absent body)) (Stated depth s) := by
    refine fun last => .node fun id fin arena => ⟨.doLoop hroom htest hbody, .of_first ?_, nofun⟩
    rw [hkind]
    simp [between]
  have haccept : GivesAt n 8 (depth + 1) (depth + 1) later (accept .semicolon >>= fun _ =>
      node s.current.start (.loop .doWhile .absent test .absent body)) (Stated depth s) :=
    .accept rfl (fun _ => hend _) fun _ => hend _
  exact haccept

theorem gives_returnStatement (hk : s.current.kind = .returnWord) :
    GivesAt n slack (depth + 1) (depth + 1) s (returnStatement self) (Stated depth s) := by
  refine .here (.advance (by simp [hk]) (.check ?_))
  have hend : ∀ value links m, (value.isPresent → Phrase true (.expression links) (depth + 1) value) →
      GivesAt n 8 (depth + 1) (depth + 1) m
        (endStatement >>= fun _ => node s.current.start (.exit false value)) (Stated depth s) := by
    refine fun value links m hvalue => .bind gives_endStatement fun _ later _ =>
      .node fun id fin arena => ⟨.exit hroom nofun hvalue, .of_first ?_, nofun⟩
    rw [hk]
    simp
  refine .ite (fun _ => hend .absent 0 _ nofun) fun _ => .bind (hself.part .expression) ?_
  exact fun value m ⟨links, hvalue⟩ => hend value links m fun _ => hvalue

theorem gives_throwStatement (hk : s.current.kind = .throwWord) :
    GivesAt n slack (depth + 1) (depth + 1) s (throwStatement self) (Stated depth s) := by
  refine .here (.advance (by simp [hk]) (.current (.ite (fun _ => .complain) fun _ => ?_)))
  refine .bind (hself.part .expression) ?_
  rintro value m ⟨links, hvalue⟩
  refine .bind gives_endStatement fun _ later _ => .node fun id fin arena =>
    ⟨.exit hroom (fun _ => hvalue.isPresent) fun _ => hvalue, .of_first ?_, nofun⟩
  rw [hk]
  simp

omit hself in
theorem gives_jump {k : Tree.Kind} (hk : s.current.kind = .breakWord ∧ k = .breakStatement ∨
      s.current.kind = .continueWord ∧ k = .continueStatement) :
    GivesAt n slack (depth + 1) (depth + 1) s (jump k) (Stated depth s) := by
  have hne : s.current.kind ≠ .endOfFile := by
    rintro heq
    simp [heq] at hk
  refine .here (.advance hne (.current (.ite (fun _ => .complain) fun _ => ?_)))
  refine .bind gives_endStatement fun _ later _ => .node fun id fin arena =>
    ⟨.jump hroom (hk.imp And.right fun h => .inl h.2), .of_first ?_, nofun⟩
  obtain ⟨hkind, rfl⟩ | ⟨hkind, rfl⟩ := hk <;> simp [hkind]

omit hself in
theorem gives_emptyStatement (hk : s.current.kind = .semicolon) :
    GivesAt n slack (depth + 1) (depth + 1) s emptyStatement (Stated depth s) := by
  refine .here (.advance (by simp [hk]) (.node fun id fin arena =>
    ⟨.jump hroom (by simp), .of_first ?_, nofun⟩))
  simp [hk]

theorem gives_expressionStatement (hbrace : s.current.kind ≠ .openBrace)
    (hfunction : s.current.kind ≠ .functionWord) :
    GivesAt n 5 (depth + 1) (depth + 1) s (expressionStatement self) (Stated depth s) := by
  refine .here (.bind (hself .expression _ s) ?_)
  rintro value m ⟨⟨⟨links, hvalue⟩, hbegins⟩, -⟩
  exact .bind gives_endStatement fun _ later _ => .node fun id fin arena =>
    ⟨.evaluate hroom hvalue (fun h => hbrace (hbegins _ nofun h))
      (fun h => hfunction (hbegins _ nofun h)),
      hbegins.of_left hvalue.words_ne_nil words_evaluate, nofun⟩

theorem gives_statementInside :
    GivesAt n 5 (depth + 1) (depth + 1) s (statementInside n self) (Stated depth s) := by
  have hnone : GivesAt n 5 (depth + 1) (depth + 1) s statementInside.noStatement (Stated depth s) :=
    .complain
  have hexpression : s.current.kind ≠ .openBrace → s.current.kind ≠ .functionWord →
      GivesAt n 5 (depth + 1) (depth + 1) s (do
        if ← check State.startsExpression then expressionStatement self
        else statementInside.noStatement) (Stated depth s) := fun hbrace hfunction =>
    .check (.ite (fun _ => gives_expressionStatement hself hroom hbrace hfunction) fun _ => hnone)
  refine .kind ?_
  generalize hk : s.current.kind = k at hexpression ⊢
  cases k with
  | openBrace =>
    refine ((hself .block _ s).spare (by decide)).mono ?_
    rintro node m ⟨⟨hblock, hbegins⟩, -⟩
    refine ⟨.ofBlock hroom hblock, hbegins, ?_⟩
    cases hblock with
    | block => nofun
  | varWord | constWord => exact gives_variableStatement hself hroom (by simp [hk])
  | letWord =>
    exact .check (.ite (fun _ => gives_variableStatement hself hroom (by simp [hk])) fun _ => hnone)
  | functionWord => exact gives_functionDeclaration hself hroom
  | ifWord => exact gives_ifStatement hself hroom
  | forWord => exact gives_forStatement hself hroom
  | whileWord => exact gives_whileStatement hself hroom
  | doWord => exact gives_doStatement hself hroom
  | returnWord => exact gives_returnStatement hself hroom hk
  | throwWord => exact gives_throwStatement hself hroom hk
  | breakWord => exact gives_jump hroom (.inl ⟨hk, rfl⟩)
  | continueWord => exact gives_jump hroom (.inr ⟨hk, rfl⟩)
  | semicolon => exact gives_emptyStatement hroom hk
  | _ => exact hexpression nofun nofun

omit hroom in
theorem gives_statement : GivesAt n 5 depth depth s (statement n self) fun node m =>
    Made (Phrase true .statement depth) s node ∧ (isOpenIf node → m.current.kind ≠ .elseWord) :=
  .enter fun hroom => .bind (gives_statementInside hself fun _ => hroom) fun _ _ h =>
    .leave (.pure ⟨⟨h.phrase, h.begins⟩, h.next⟩)

end

theorem reads_productions (n : Nat) : Reads n (productions n) := by
  induction n with
  | zero =>
    intro goal depth s _ _ hfuel
    omega
  | succ n ih =>
    intro goal depth s
    -- One step of the fuel is spent on the production itself.
    have hspend : ∀ {p : Parse Node} {Q}, GivesAt n goal.rank depth depth s p Q →
        GivesAt (n + 1) (goal.rank + 1) depth depth s p Q :=
      fun h hd hs hfuel => h hd hs (Nat.le_of_succ_le_succ hfuel)
    refine hspend ?_
    cases goal with
    | statement => exact gives_statement ih
    | block => exact (gives_block ih).mono fun _ _ h => ⟨h, trivial⟩
    | expression => exact (gives_expression ih).mono fun _ _ h => ⟨h, trivial⟩
    | assignment => exact (gives_assignment ih).mono fun _ _ h => ⟨h, trivial⟩
    | binary least => exact gives_binary ih
    | unary => exact (gives_unary ih).mono fun _ _ h => ⟨h, trivial⟩
    | new => exact gives_newExpression ih

/-- A file that is not complained about consists of statements. -/
theorem parse_statements {name text : String} (h : (parse name text).complaints = []) :
    ∃ id fin statements, (parse name text).root = .mk ⟨id, 0, fin, {}⟩ (.file name statements) ∧
      ∀ statement ∈ statements, Phrase true .statement 0 statement := by
  let s := State.start (Token.list text)
  let n := fuelFor (Token.list text)
  let p := statementList n .endOfFile (productions n)
  have hfuel : 8 * s.tokens.length + 8 ≤ n := by
    simp only [s, n, tokens_start, fuelFor]
    omega
  have hgives : GivesAt n 8 0 0 s p fun statements _ =>
      ∀ statement ∈ statements, Phrase true .statement 0 statement :=
    gives_statementsOnto (reads_productions n) n (by simp)
  have hall := (hgives (start_depth _) (sourced_start text) hfuel (parse_clean h)).2
  exact ⟨_, _, (p s).1, rfl, hall⟩

theorem parse_isFile {name text : String} (h : (parse name text).complaints = []) :
    IsFile true (parse name text).root := by
  obtain ⟨id, fin, statements, hroot, hall⟩ := parse_statements h
  exact ⟨id, fin, name, statements, hroot, hall⟩

end ArrayLoops.Grammar
