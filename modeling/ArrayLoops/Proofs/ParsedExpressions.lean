import ArrayLoops.Proofs.ParsedPhrases

/-!
# Expressions of a parse without complaints

What a production for expressions makes is a phrase of its level. What it leaves is known as well: an
operator that binds more loosely, and no parenthesis behind a `new` without arguments.
-/

namespace ArrayLoops.Grammar

open Token (Kind)
open ArrayLoops.Tree (Flags Info Node Shape)

variable {β : Type} {n slack depth e : Nat} {s : State} {node : Node} {R : β → State → Prop}

/-- What was read begins with the first word of the tree. Only the parentheses around the parameter
of an arrow function need not have been there. -/
def Begins (s : State) (node : Node) : Prop :=
  ∀ kind, kind ≠ .openParen → firstKind? node = some kind → s.current.kind = kind

theorem Begins.of_first (h : firstKind? node = some s.current.kind) : Begins s node :=
  fun _ _ hk => Option.some.inj (h.symm.trans hk)

theorem Begins.of_paren (h : firstKind? node = some .openParen) : Begins s node :=
  fun _ hne hk => absurd (Option.some.inj (hk.symm.trans h)) hne

theorem Begins.of_eq {left : Node} (h : Begins s left) (hfirst : firstKind? node = firstKind? left) :
    Begins s node :=
  fun kind hne hk => h kind hne (hfirst ▸ hk)

theorem firstKind?_of_left {left : Node} {others : List Spelling} (hne : words left ≠ [])
    (hw : words node = words left ++ others) : firstKind? node = firstKind? left := by
  rw [firstKind?, hw, head?_append_left hne]
  rfl

theorem Begins.of_left {left : Node} {others : List Spelling} (h : Begins s left)
    (hne : words left ≠ []) (hw : words node = words left ++ others) : Begins s node :=
  h.of_eq (firstKind?_of_left hne hw)

/-- Something was read and made into a tree. -/
structure Made (P : Node → Prop) (s : State) (node : Node) : Prop where
  phrase : P node
  begins : Begins s node

def Goal.Next (goal : Goal) (node : Node) (kind : Kind) : Prop :=
  match goal with
  | .statement => isOpenIf node → kind ≠ .elseWord
  | .binary least => kind.precedence = 0 ∨ kind.precedence < least
  | .new => isOpenNew node → kind ≠ .dot ∧ kind ≠ .openBracket ∧ kind ≠ .openParen
  | _ => True

def Reads (n : Nat) (self : Productions) : Prop :=
  ∀ goal depth s, GivesAt n (goal.rank + 1) depth depth s (self goal) fun node m =>
    Made (goal.Fits true depth) s node ∧ goal.Next node m.current.kind

theorem gives_identifierOf {text : Token → String} (hk : isMemberName s.current.kind)
    (ht : text s.current = s.current.text ∨ text s.current = s.current.value) :
    GivesAt n slack depth depth s (identifierOf text) fun node _ =>
      (∀ kinds : Kind → Bool, kinds s.current.kind → Leaf kinds node) ∧
        firstKind? node = some s.current.kind := by
  have hne : s.current.kind ≠ .endOfFile := by
    rintro heq
    rw [heq] at hk
    cases hk
  refine fun hd => .clean fun hs hclean => ?_
  have hgenuine := hs.current hclean hne
  obtain ⟨hvalue, hkind⟩ := name_of_genuine hgenuine hk
  simp only [Token.word] at hvalue hkind hgenuine
  have htext : text s.current = s.current.text := by
    obtain ht | ht := ht
    · exact ht
    · rw [ht, hvalue]
  refine GivesAt.current (.advance hne (.node fun id fin arena => ?_)) hd
  rw [htext]
  refine ⟨fun kinds hkinds => .name (hkind ▸ hkinds) ?_, ?_⟩
  · rw [hkind, hvalue] at hgenuine
    exact hgenuine
  · rw [hkind]
    simp [firstKind?, words_mk, Shape.map, wordsNode, Spelling.kind]

theorem gives_identifier (hk : s.current.kind = .identifier) :
    GivesAt n slack depth depth s identifier fun node _ => Leaf isBinding node :=
  (gives_identifierOf (by simp [hk, isMemberName]) (.inr rfl)).mono fun _ _ h =>
    h.1 isBinding (by simp [hk, isBinding])

theorem gives_propertyName :
    GivesAt n slack depth depth s propertyName fun node _ => Leaf isMemberName node := by
  refine .kind (.ite (fun hk => ?_) fun _ => .kind (.ite (fun hk => ?_) fun _ => .complain))
  · have hk : isMemberName s.current.kind := by simp_all [isMemberName]
    exact (gives_identifierOf hk (.inr rfl)).mono fun _ _ h => h.1 _ hk
  · have hk : isMemberName s.current.kind := by simp [isMemberName, hk]
    exact (gives_identifierOf hk (.inl rfl)).mono fun _ _ h => h.1 _ hk

theorem gives_bindingName :
    GivesAt n slack depth depth s bindingName fun node _ => Leaf isBinding node := by
  refine .kind ?_
  split
  · exact gives_identifier ‹_›
  · exact .complain
  · exact .complain
  · exact .complain

theorem gives_literal (hk : isLiteral s.current.kind) :
    GivesAt n slack depth depth s literal fun node _ =>
      (∀ kinds : Kind → Bool, kinds s.current.kind → Leaf kinds node) ∧
        firstKind? node = some s.current.kind := by
  have hkind : s.current.kind = .string ∨ s.current.kind = .number := by
    simpa [isLiteral] using hk
  have hne : s.current.kind ≠ .endOfFile := by
    rintro heq
    simp [heq] at hkind
  have hif : (if s.current.kind == .string then Kind.string else .number) = s.current.kind := by
    obtain hkind | hkind := hkind <;> rw [hkind] <;> rfl
  refine fun hd => .clean fun hs hclean => ?_
  have hgenuine := hs.current hclean hne
  refine GivesAt.current (.advance hne (.node fun id fin arena => ?_)) hd
  refine ⟨fun kinds hkinds => .literal ?_ ?_, ?_⟩
  · rw [hif]
    exact hkinds
  · rw [hif]
    exact hgenuine
  · rw [firstKind?, words_mk]
    simpa [Shape.map, wordsNode, Spelling.kind] using hif

theorem gives_wordExpression (hk : isValueWord s.current.kind) :
    GivesAt n slack depth depth s wordExpression fun node _ =>
      Made (Phrase true .head depth) s node := by
  have hne : s.current.kind ≠ .endOfFile := by
    rintro heq
    rw [heq] at hk
    cases hk
  exact .current (.advance hne (.node fun id fin arena =>
    ⟨.word hk, .of_first (by simp [firstKind?, words_mk, Shape.map, wordsNode])⟩))

section
variable {self : Productions} (hself : Reads n self)
include hself

attribute [local simp] Shape.map firstKind? words_mk wordsNode

theorem Reads.part (goal : Goal) :
    GivesAt n 8 depth depth s (self goal) fun node _ => goal.Fits true depth node :=
  ((hself goal depth s).spare goal.rank_lt).mono fun _ _ h => h.1.phrase

theorem gives_argumentList (count : Nat) :
    GivesAt n slack depth depth s (argumentList count self) fun arguments m =>
      m.tokens.length < s.tokens.length ∧
        ∀ argument ∈ arguments, Phrase true .assignment depth argument := by
  have hlist : GivesAt n 8 depth depth s.advance (do
      let arguments ← items count .closeParen (self .assignment)
      discard (expect .closeParen)
      return arguments) fun arguments _ =>
        ∀ argument ∈ arguments, Phrase true .assignment depth argument :=
    .listed rfl (fun _ => hself.part .assignment) count fun arguments m h => .pure h
  refine fun hd => .expect rfl fun _ hopen => (hlist.shorter (hopen.depth.trans hd)).mono ?_
  rintro arguments m ⟨hdepth, hlength, harguments⟩
  have hless := hopen.length
  exact ⟨hdepth, by omega, harguments⟩

theorem gives_initializer : GivesAt n slack depth depth s (initializer self) fun value _ =>
    value.isPresent → Phrase true .assignment depth value :=
  .accept rfl (fun _ => (hself.part .assignment).mono fun _ _ h _ => h) fun _ => .pure nofun

theorem gives_parameter :
    GivesAt n slack depth depth s (parameter self) fun node _ => Phrase true .parameter depth node :=
  .here (.bind gives_bindingName fun _ _ hname => .bind (gives_initializer hself) fun _ _ hvalue =>
    .node fun _ _ _ => .parameter hname hvalue)

theorem gives_parameterList (count : Nat) :
    GivesAt n slack depth depth s (parameterList count self) fun parameters _ =>
      ∀ parameter ∈ parameters, Phrase true .parameter depth parameter :=
  .expectThen rfl fun _ => .listed rfl (fun _ => gives_parameter hself) count fun _ _ h => .pure h

theorem gives_parenthesized : GivesAt n slack depth depth s (parenthesized self) fun node _ =>
    Made (Phrase true .head depth) s node := by
  refine .here (.expect rfl fun hkind => .bind (hself.part .expression) ?_)
  rintro expression m ⟨links, hphrase⟩
  refine .expect rfl fun _ => .node fun id fin arena => ⟨.parenthesized hphrase, .of_first ?_⟩
  rw [hkind]
  simp [between]

theorem gives_arrayLiteral (count : Nat) :
    GivesAt n slack depth depth s (arrayLiteral count self) fun node _ =>
      Made (Phrase true .head depth) s node := by
  have helements (m : State) : GivesAt n 8 depth depth m (elementsOnto (self .assignment) count [])
      fun nodes _ => ∀ node ∈ nodes, Goal.Fits true .assignment depth node :=
    gives_elementsOnto (fun _ => hself.part .assignment) count (by simp)
  refine .here (.expect rfl fun hkind => .bind (helements _) fun elements m hall => ?_)
  refine .expect rfl fun _ => .node fun id fin arena => ⟨.array hall, .of_first ?_⟩
  rw [hkind]
  simp [between]

theorem gives_property :
    GivesAt n slack depth depth s (property self) fun node _ => Phrase true .property depth node := by
  refine .here (.check (.kind ?_))
  let rest := propertyRest self s.current.start s.atName
  have hrest : ∀ name m, Leaf isKey name → (s.atName = true → Leaf isMemberName name) →
      GivesAt n slack depth depth m (rest name) fun node _ => Phrase true .property depth node := by
    intro name m hkey hname
    refine .accept rfl (fun _ => .bind (hself.part .assignment) fun value later hvalue =>
      .node fun id fin arena => .property hkey hvalue) fun hne => ?_
    cases hat : s.atName with
    | true => exact .node fun id fin arena => .shorthand (hname hat)
    | false => exact .expect rfl fun heq => absurd heq hne
  have hliteral : isLiteral s.current.kind → GivesAt n slack depth depth s (literal >>= rest)
      fun node _ => Phrase true .property depth node := fun hk =>
    .bind (gives_literal hk) fun name m h =>
      hrest name m (h.1 _ (by simp [isKey, hk])) fun hat => h.1 _ hat
  have hname : GivesAt n slack depth depth s (if s.atName then propertyName >>= rest
      else missingBecause .propertyExpected >>= rest) fun node _ => Phrase true .property depth node :=
    .ite (fun _ => .bind gives_propertyName fun name m hleaf => hrest name m hleaf.isKey fun _ => hleaf)
      fun _ hd => .bind (Q := fun _ _ => False) .missingBecause fun _ _ h => h.elim
  generalize hk : s.current.kind = k at hliteral ⊢
  cases k with
  | string | number => exact hliteral rfl
  | _ => exact hname

theorem gives_objectLiteral (count : Nat) :
    GivesAt n slack depth depth s (objectLiteral count self) fun node _ =>
      Made (Phrase true .head depth) s node := by
  refine .here (.expect rfl fun hkind => .listed rfl (fun _ => gives_property hself) count
    fun properties m hproperties => .node fun id fin arena => ⟨.object hproperties, .of_first ?_⟩)
  rw [hkind]
  simp [between]

theorem gives_functionExpression (count : Nat) :
    GivesAt n slack depth depth s (functionExpression count self) fun node _ =>
      Made (Phrase true .head depth) s node := by
  refine .here (.expect rfl fun hkind => .kind ?_)
  let rest := functionRest .expression count self s.current.start
  have hrest : ∀ name m, (name.isPresent → Leaf isBinding name) →
      GivesAt n 8 depth depth m (rest name) fun node _ => Made (Phrase true .head depth) s node := by
    intro name m hname
    refine .bind (gives_parameterList hself count) fun parameters later hparameters =>
      .bind (hself.part .block) fun body last hbody => .node fun id fin arena =>
        ⟨.functionExpression hname hparameters hbody, .of_first ?_⟩
    rw [hkind]
    simp
  refine .ite (fun hk => ?_) fun _ => hrest .absent _ nofun
  exact .bind (gives_identifier (by simpa using hk)) fun name m hleaf => hrest name m fun _ => hleaf

theorem gives_primary (count : Nat) :
    GivesAt n slack depth depth s (primary count self) fun node _ =>
      Made (Phrase true .head depth) s node := by
  refine .kind ?_
  have hleaf : ∀ node, isOperand s.current.kind →
      ((∀ kinds : Kind → Bool, kinds s.current.kind → Leaf kinds node) ∧
        firstKind? node = some s.current.kind) → Made (Phrase true .head depth) s node :=
    fun node hk h => ⟨.leaf (h.1 _ hk), .of_first h.2⟩
  split
  · refine (gives_identifierOf (by simp [isMemberName, *]) (.inr rfl)).mono fun node m h => ?_
    exact hleaf node (by simp [isOperand, isBinding, *]) h
  · exact gives_wordExpression (by simp [isValueWord, *])
  · exact gives_wordExpression (by simp [isValueWord, *])
  · exact gives_wordExpression (by simp [isValueWord, *])
  · exact gives_wordExpression (by simp [isValueWord, *])
  · refine (gives_literal (by simp [isLiteral, *])).mono fun node m h => ?_
    exact hleaf node (by simp [isOperand, isLiteral, *]) h
  · refine (gives_literal (by simp [isLiteral, *])).mono fun node m h => ?_
    exact hleaf node (by simp [isOperand, isLiteral, *]) h
  · exact gives_parenthesized hself
  · exact gives_arrayLiteral hself count
  · exact gives_objectLiteral hself count
  · exact gives_functionExpression hself count
  · exact .complain

/-- The chain that begins with a node has been read to its end. -/
structure Chained (calls : Bool) (depth : Nat) (object node : Node) (later : State) : Prop where
  phrase : ∃ links, Phrase true (.member calls links) depth node
  first : firstKind? node = firstKind? object
  ended : isLink calls later.current.kind = false
  closed : isOpenNew node → isLink true later.current.kind = false

theorem gives_memberRest {calls : Bool} {pos links : Nat} {object : Node} (count : Nat)
    (hphrase : Phrase true (.member calls links) depth object)
    (hopen : isOpenNew object → isLink true s.current.kind = false) (hcount : s.tokens.length ≤ count) :
    GivesAt n slack (depth + links) depth s (memberRest calls self pos count links object)
      (Chained calls depth object) := by
  induction count generalizing s links object with
  | zero => simp [State.tokens] at hcount
  | succ count ih =>
    refine .kind (.ite (fun hlink => .leave (.pure ?_)) fun hlink => ?_)
    · exact ⟨⟨links, hphrase⟩, rfl, (Bool.not_eq_true' _).mp hlink, hopen⟩
    have hlink : isLink calls s.current.kind = true :=
      (Bool.not_eq_false _).mp fun h => hlink ((Bool.not_eq_true' _).mpr h)
    have hclosed : isOpenNew object = false := by
      cases ho : isOpenNew object with
      | false => rfl
      | true =>
        have := hopen ho
        cases calls <;> simp_all [isLink]
    refine .enter fun hroom => .ite (by simp) fun _ => ?_
    have hroom : Room true (depth + links) := fun _ => hroom
    -- Each link makes a longer chain out of the one before it.
    have hnext : ∀ link : Parse Node, GivesAt n slack (depth + (links + 1)) (depth + (links + 1)) s.opened
        link (fun node m => m.tokens.length < s.tokens.length ∧
          Phrase true (.member calls (links + 1)) depth node ∧ isOpenNew node = false ∧
          ∃ others, words node = words object ++ others) →
        GivesAt n slack (depth + (links + 1)) depth s.opened
          (link >>= memberRest calls self pos count (links + 1)) (Chained calls depth object) := by
      refine fun link hlink => .bind hlink ?_
      rintro node m ⟨hlength, hnode, hnew, others, hwords⟩
      refine (ih hnode (by simp [hnew]) (by omega)).mono fun last later h => ?_
      exact ⟨h.phrase, h.first.trans (firstKind?_of_left hphrase.words_ne_nil hwords), h.ended, h.closed⟩
    have hne : s.current.kind ≠ .endOfFile := by
      intro heq
      simp [heq, isLink] at hlink
    have hdot := hnext (do
        advance
        let name ← propertyName
        node pos (.access false object name)) <| .passing hne <|
      .bind gives_propertyName fun name m hname => .node fun id fin arena =>
        ⟨.access hphrase hclosed hroom hname, rfl, _, words_access⟩
    have hcomputed := hnext (do
        advance
        let key ← self .expression
        discard (expect .closeBracket)
        node pos (.access true object key)) <| .passing hne <|
      .bind (hself.part .expression) fun key m hkey => .expect rfl fun _ =>
        .node fun id fin arena => ⟨.element hphrase hclosed hroom hkey.choose_spec, rfl, _, words_element⟩
    have hcall : calls = true → GivesAt n slack _ _ s.opened _ _ := fun hcalls => hnext (do
        let arguments ← argumentList count self
        node pos (.call false object true arguments)) <|
      .bind (gives_argumentList hself count) fun arguments m h =>
        .node fun id fin arena => ⟨h.1, by
          subst hcalls
          exact ⟨.call hphrase hclosed hroom h.2, rfl, _, words_call⟩⟩
    generalize hkind : s.current.kind = kind at hlink
    cases kind with
    | dot => exact hdot
    | openBracket => exact hcomputed
    | openParen => exact hcall (by simpa [isLink] using hlink)
    | _ => simp [isLink] at hlink

theorem gives_memberHead (count : Nat) :
    GivesAt n 1 depth depth s (memberHead count self) fun node m =>
      Made (Phrase true .head depth) s node ∧ (isOpenNew node → isLink true m.current.kind = false) := by
  refine .kind (.ite (fun _ => (hself .new depth s).mono ?_) fun hk =>
    (gives_primary hself count).mono fun node m hmade => ⟨hmade, fun ho => ?_⟩)
  · rintro node m ⟨hmade, hnext⟩
    refine ⟨⟨.ofNew hmade.phrase, hmade.begins⟩, fun ho => ?_⟩
    obtain ⟨hdot, hbracket, hparen⟩ := hnext ho
    simp [isLink, hdot, hbracket, hparen]
  · -- A primary expression does not begin with `new`.
    have hfirst : firstKind? node = some .newWord := by
      unfold isOpenNew at ho
      split at ho
      · simp
      · cases ho
    exact absurd (hmade.begins .newWord nofun hfirst) (by simpa using hk)

theorem gives_chain {calls : Bool} {pos : Nat} {f : Node → Parse β}
    (hf : ∀ head node m, Begins s head → Chained calls depth head node m →
      GivesAt n 1 depth e m (f node) R) :
    GivesAt n 1 depth e s
      (memberHead n self >>= fun head => memberRest calls self pos n 0 head >>= f) R := by
  refine .bind (gives_memberHead hself n) ?_
  rintro head m ⟨hmade, hopen⟩
  exact .fuel fun hlength => .bind (gives_memberRest hself n (.ofHead hmade.phrase) hopen hlength)
    fun node later h => hf head node later hmade.begins h

theorem gives_newExpression : GivesAt n slack depth depth s (newExpression n self) fun node m =>
    Made (Phrase true .new depth) s node ∧ Goal.new.Next node m.current.kind := by
  refine .here (.expect rfl fun hkind => .here (.spare (gives_chain hself ?_) (by decide)))
  rintro head callee m - ⟨⟨links, hcallee⟩, -, hlink, hopen⟩
  refine .kind (.ite (fun hparen => .bind (gives_argumentList hself n) ?_) fun hparen =>
    .node fun id fin arena => ⟨⟨.newBare hcallee, .of_first ?_⟩, fun _ => ?_⟩)
  · rintro arguments last ⟨-, harguments⟩
    have hclosed : isOpenNew callee = false := by
      cases ho : isOpenNew callee with
      | false => rfl
      | true => simp_all [isLink]
    refine .node fun id fin arena => ⟨⟨.newListed hcallee hclosed harguments, .of_first ?_⟩, nofun⟩
    rw [hkind]
    simp
  · rw [hkind]
    simp
  · change m.current.kind ≠ .dot ∧ m.current.kind ≠ .openBracket ∧ m.current.kind ≠ .openParen
    simp_all [isLink]

theorem gives_trailing : GivesAt n 1 depth depth s (trailing n self) fun node _ =>
    Made (Phrase true .operand depth) s node := by
  refine .here (gives_chain hself ?_)
  rintro head operand m hbegins ⟨⟨links, hoperand⟩, hfirst, -, -⟩
  have hbegins : Begins s operand := hbegins.of_eq hfirst
  refine .current (.ite (fun hoperator => ?_) fun _ => .pure ⟨.ofMember hoperand, hbegins⟩)
  rw [Bool.and_eq_true, Bool.or_eq_true, beq_iff_eq, beq_iff_eq] at hoperator
  have hne : m.current.kind ≠ .endOfFile := by
    intro heq
    simp [heq] at hoperator
  exact .advance hne (.node fun id fin arena =>
    ⟨.trailing hoperator.1 hoperand, hbegins.of_left hoperand.words_ne_nil words_trailing⟩)

theorem gives_unary : GivesAt n 1 depth depth s (unary n self) fun node _ =>
    Made (Phrase true .unary depth) s node := by
  refine .current (.ite (fun hoperator => .enter fun hroom => ?_) fun _ =>
    (gives_trailing hself).mono fun node m h => ⟨.ofOperand h.phrase, h.begins⟩)
  have hne : s.current.kind ≠ .endOfFile := by
    intro heq
    simp [heq, isLeadingOperator] at hoperator
  refine .ite (fun _ => .advance hne (.bind (hself.part .unary) fun operand m hoperand =>
    .leave (.node fun id fin arena =>
      ⟨.leading hoperator (fun _ => hroom) hoperand, .of_first ?_⟩))) (absurd rfl ·)
  simp

/-- The operations that begin with an operand have been read to their end. -/
structure Operated (least depth : Nat) (left node : Node) (later : State) : Prop where
  phrase : ∃ links, Phrase true (.binary least links) depth node
  first : firstKind? node = firstKind? left
  ended : later.current.kind.precedence = 0 ∨ later.current.kind.precedence < least

theorem gives_binaryRest {least pos links : Nat} {left : Node} (count : Nat)
    (hphrase : Phrase true (.binary least links) depth left)
    (hleft : s.current.kind.precedence ≠ 0 → least ≤ s.current.kind.precedence →
      Phrase true (.binary (leftLeast s.current.kind) links) depth left)
    (hcount : s.tokens.length ≤ count) :
    GivesAt n slack (depth + links) depth s (binaryRest least self pos count links left)
      (Operated least depth left) := by
  induction count generalizing s slack links left with
  | zero => simp [State.tokens] at hcount
  | succ count ih =>
    refine .kind (.ite (fun hend => .leave (.pure ⟨⟨links, hphrase⟩, rfl, by simpa using hend⟩))
      fun hgoes => ?_)
    have hgoes : s.current.kind.precedence ≠ 0 ∧ least ≤ s.current.kind.precedence := by
      simpa using hgoes
    have hne : s.current.kind ≠ .endOfFile := by
      intro heq
      simp [heq, Kind.precedence] at hgoes
    have hleft := hleft hgoes.1 hgoes.2
    refine .enter fun hroom => .ite (by simp) fun _ => ?_
    have hroom : Room true (depth + links) := fun _ => hroom
    have hright := ((hself (.binary (rightLeast s.current.kind)) (depth + links + 1)
      s.opened.advance).spare (Goal.rank_lt _)).shorter
    refine fun hd => .advance hne fun hpassed => ?_
    refine GivesAt.bind hright ?_ (hpassed.depth.trans hd)
    rintro right m ⟨hlength, ⟨⟨more, hright⟩, -⟩, hnext⟩
    have hless : s.opened.advance.tokens.length + 1 = s.tokens.length := hpassed.length
    refine .bindNode fun id fin arena => (ih (.operator hgoes.1 hgoes.2 hleft hroom hright) ?_ ?_).mono ?_
    · intro hoperator _
      exact .operator hgoes.1 (leftLeast_le (hnext.resolve_left hoperator)) hleft hroom hright
    · change m.tokens.length ≤ count
      omega
    · exact fun node later h =>
        ⟨h.phrase, h.first.trans (firstKind?_of_left hphrase.words_ne_nil words_binary), h.ended⟩

theorem gives_binary {least : Nat} : GivesAt n 2 depth depth s (binary n self least) fun node m =>
    Made ((Goal.binary least).Fits true depth) s node ∧ (Goal.binary least).Next node m.current.kind := by
  refine .here (.bind (hself .unary depth s) ?_)
  rintro left m ⟨⟨hleft, hbegins⟩, -⟩
  refine .fuel fun hlength => (gives_binaryRest hself n (.ofUnary hleft) (fun _ _ => .ofUnary hleft)
    hlength).mono fun node later h => ?_
  exact ⟨⟨h.phrase, hbegins.of_eq h.first⟩, h.ended⟩

theorem gives_arrowFunction (hroom : Room true depth) :
    GivesAt n slack (depth + 1) (depth + 1) s (arrowFunction n self) fun node _ =>
      Made (Phrase true .assignment depth) s node := by
  refine .here (.kind ?_)
  let rest := arrowRest self s.current.start
  have hrest : ∀ parameters m,
      (∀ parameter ∈ parameters, Phrase true .parameter (depth + 1) parameter) →
      GivesAt n slack (depth + 1) (depth + 1) m (rest parameters) fun node _ =>
        Made (Phrase true .assignment depth) s node := by
    intro parameters m hparameters
    refine .expect rfl fun _ => .kind (.ite (fun _ => .bind (hself.part .block) fun body last hbody =>
      .node fun id fin arena => ⟨.arrowBlock hroom hparameters hbody, .of_paren ?_⟩) fun hbrace =>
        .bind ((hself .assignment _ _).spare (by decide)) fun body last hmade =>
          .node fun id fin arena => ⟨.arrowExpression hroom hparameters hmade.1.phrase ?_, .of_paren ?_⟩)
    · simp [between]
    · exact fun hfirst => hbrace (by simpa using hmade.1.begins .openBrace (by decide) hfirst)
    · simp [between]
  have hsingle : s.current.kind = .identifier → GivesAt n slack (depth + 1) (depth + 1) s
      (identifier >>= fun name =>
        node s.current.start (.parameter name .absent) >>= fun single => rest [single]) fun node _ =>
        Made (Phrase true .assignment depth) s node := by
    refine fun hk => .bind (gives_identifier hk) fun name m hname => .bindNode fun id fin arena =>
      hrest _ _ fun parameter hmem => ?_
    obtain rfl := List.mem_singleton.mp hmem
    exact .parameter hname (by simp)
  exact .ite (fun hk => hsingle (by simpa using hk)) fun _ =>
    .bind (gives_parameterList hself n) hrest

theorem gives_assignmentInside (hroom : Room true depth) :
    GivesAt n 3 (depth + 1) (depth + 1) s (assignmentInside n self) fun node _ =>
      Made (Phrase true .assignment depth) s node := by
  refine .check (.ite (fun _ => gives_arrowFunction hself hroom) fun _ => .here ?_)
  refine .bind (hself (.binary 1) (depth + 1) s) ?_
  rintro left m ⟨⟨⟨links, hleft⟩, hbegins⟩, -⟩
  refine .kind (.ite (fun hoperator => ?_) fun _ => .accept rfl (fun _ => ?_) fun _ =>
    .pure ⟨.ofBinary hroom hleft, hbegins⟩)
  · have hne : m.current.kind ≠ .endOfFile := by
      intro heq
      simp [heq, Kind.isAssignment] at hoperator
    have hassign : isTarget left → GivesAt n 3 (depth + 1) (depth + 1) m (do
        advance
        let right ← self .assignment
        node s.current.start (.binary left m.current.kind right)) fun node _ =>
          Made (Phrase true .assignment depth) s node := fun htarget =>
      .advance hne (.bind (hself.part .assignment) fun right last hright => .node fun id fin arena =>
        ⟨.assign hroom hleft htarget hoperator hright,
          hbegins.of_left hleft.words_ne_nil words_binary⟩)
    exact .ite hassign fun _ => .complain
  · refine .bind (hself.part .assignment) fun whenTrue middle htrue => .expect rfl fun _ =>
      .bind (hself.part .assignment) fun whenFalse last hfalse => .node fun id fin arena =>
        ⟨.conditional hroom hleft htrue hfalse, ?_⟩
    exact hbegins.of_left hleft.words_ne_nil (words_conditional.trans (List.append_assoc _ _ _))

theorem gives_assignment : GivesAt n 3 depth depth s (assignment n self) fun node _ =>
    Made (Phrase true .assignment depth) s node :=
  .enter fun hroom => .ite (fun _ => .bind (gives_assignmentInside hself fun _ => hroom)
    fun _ _ h => .leave (.pure ⟨h.phrase, h.begins⟩)) (absurd rfl ·)

theorem gives_commaRest {pos links : Nat} {left : Node} (count : Nat)
    (hphrase : Phrase true (.expression links) depth left) :
    GivesAt n slack (depth + links) depth s (commaRest self pos count links left) fun node _ =>
      (∃ links, Phrase true (.expression links) depth node) ∧ firstKind? node = firstKind? left := by
  induction count generalizing s slack links left with
  | zero => exact .exhaust (.leave (.pure ⟨⟨links, hphrase⟩, rfl⟩))
  | succ count ih =>
    refine .kind (.ite (fun _ => .leave (.pure ⟨⟨links, hphrase⟩, rfl⟩)) fun hcomma => ?_)
    have hcomma : s.current.kind = .comma := by simpa using hcomma
    refine .enter fun hroom => .ite (by simp) fun _ => .advance (by simp [hcomma]) ?_
    refine .bind (hself.part .assignment) fun right m hright => .bindNode fun id fin arena =>
      (ih (.comma hphrase (fun _ => hroom) hright)).mono fun node later h => ⟨h.1, h.2.trans ?_⟩
    exact firstKind?_of_left hphrase.words_ne_nil words_binary

theorem gives_expression : GivesAt n 4 depth depth s (expression n self) fun node _ =>
    Made (Goal.expression.Fits true depth) s node := by
  refine .here (.bind (hself .assignment depth s) ?_)
  rintro left m ⟨⟨hleft, hbegins⟩, -⟩
  exact (gives_commaRest hself n (.ofAssignment hleft)).mono fun node later h =>
    ⟨h.1, hbegins.of_eq h.2⟩

end

end ArrayLoops.Grammar
