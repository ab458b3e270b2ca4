import ArrayLoops.Proofs.ParsedStatements
import ArrayLoops.Proofs.RereadStatements
import ArrayLoops.Proofs.Written

/-!
# Operators and their operands

How tightly the operands of an operator bind in a tree that was parsed without complaints: an operand
that is an operation itself binds as tightly as its place asks for, and looser ones are in parentheses.
So the words of a tree say how they are grouped, and nothing has to be put into parentheses to write
the tree again.
-/

namespace ArrayLoops.Grammar

open Token (Kind)
open ArrayLoops.Tree (Info Node Shape)

/-- What decides where a tree can be an operand. -/
inductive Form where
  | operation (operator : Option Kind)
  | conditional
  | arrow
  | unary
  /-- All that is an operand of every operator. -/
  | closed
  deriving DecidableEq

def form : Node → Form
  | .mk _ (.binary _ operator _) => .operation operator
  | .mk _ (.conditional ..) => .conditional
  | .mk _ (.function .arrow ..) => .arrow
  | .mk _ (.unary ..) => .unary
  | _ => .closed

namespace Form

/-- No operation of two operands, and nothing that is looser than one. -/
def IsUnary (form : Form) : Prop := form = .closed ∨ form = .unary

/-- At most operations of operators that bind at least this tightly. -/
def Binds (least : Nat) : Form → Prop
  | .operation operator => ∃ kind, operator = some kind ∧ least ≤ kind.precedence
  | .conditional | .arrow => False
  | .unary | .closed => True

def IsComma (form : Form) : Prop := form = .operation (some .comma)

end Form

/-- The operands of a node are such that they need no parentheses. -/
def Grouped : Node → Prop
  | .mk _ (.binary left operator right) => ∃ kind, operator = some kind ∧
      (0 < kind.precedence ∧
          (if kind = .power then (form left).IsUnary else (form left).Binds kind.precedence) ∧
          (form right).Binds (if kind = .power then kind.precedence else kind.precedence + 1) ∨
        kind.isAssignment ∧ isTarget left ∧ ¬ (form right).IsComma ∨
        kind = .comma ∧ ¬ (form right).IsComma)
  | .mk _ (.conditional condition whenTrue whenFalse) =>
    (form condition).Binds 1 ∧ ¬ (form whenTrue).IsComma ∧ ¬ (form whenFalse).IsComma
  | .mk _ (.unary false _ operand) => (form operand).IsUnary
  | .mk _ (.unary true _ operand) => form operand = .closed
  | .mk _ (.access _ object _) => form object = .closed
  | .mk _ (.call _ callee _ _) => form callee = .closed
  | _ => True

variable {limited : Bool} {level : Level} {depth least : Nat} {node : Node}

theorem Form.IsUnary.binds {form : Form} (h : form.IsUnary) (least : Nat) : form.Binds least := by
  obtain rfl | rfl := h <;> trivial

theorem Form.Binds.isUnary {form : Form} (h : form.Binds (Kind.power.precedence + 1)) : form.IsUnary := by
  cases form with
  | operation operator =>
    obtain ⟨kind, rfl, hkind⟩ := h
    have hpower : kind.precedence ≤ Kind.power.precedence := by cases kind <;> decide
    omega
  | conditional | arrow => exact h.elim
  | unary => exact .inr rfl
  | closed => exact .inl rfl

/-- The forms of the phrases of a level. -/
def Level.Forms (level : Level) (form : Form) : Prop :=
  match level with
  | .head | .new | .member .. => form = .closed
  | .operand | .unary => form.IsUnary
  | .binary least _ => form.Binds least
  | .assignment => ¬ form.IsComma
  | _ => True

theorem Form.Binds.not_isComma {form : Form} (h : form.Binds 1) : ¬ form.IsComma := by
  rintro rfl
  obtain ⟨kind, hkind, hle⟩ := h
  cases hkind
  cases hle

theorem Leaf.form_eq {kinds : Kind → Bool} (h : Leaf kinds node) : form node = .closed := by
  cases h <;> rfl

theorem Phrase.forms (h : Phrase limited level depth node) : level.Forms (form node) := by
  induction h with
  | leaf hleaf => exact hleaf.form_eq
  | word | parenthesized | array | object | functionExpression | newListed | newBare => rfl
  | access | element | call => rfl
  | ofNew _ ih | ofHead _ ih => exact ih
  | ofMember _ ih => exact .inl ih
  | trailing => exact .inr rfl
  | ofOperand _ ih => exact ih
  | leading => exact .inr rfl
  | ofUnary _ ih => exact ih.binds _
  | operator _ hle => exact ⟨_, rfl, hle⟩
  | ofBinary _ _ ih => exact ih.not_isComma
  | assign _ _ _ hassign =>
    rintro ⟨⟩
    cases hassign
  | conditional | arrowBlock | arrowExpression => nofun
  | _ => trivial

theorem Phrase.grouped (h : Phrase limited level depth node) : Grouped node := by
  induction h with
  | leaf hleaf => cases hleaf <;> trivial
  | ofNew _ ih | ofHead _ ih | ofMember _ ih | ofOperand _ ih | ofUnary _ ih | ofBinary _ _ ih
  | ofAssignment _ ih | ofBlock _ _ ih => exact ih
  | newListed hcallee | newBare hcallee | call hcallee => exact hcallee.forms
  | access hobject | element hobject => exact hobject.forms
  | trailing _ hoperand => exact hoperand.forms
  | leading _ _ hoperand => exact hoperand.forms
  | @operator _ _ _ _ _ _ _ kind left right hkind _ hleft _ hright =>
    have hleft : (form left).Binds (leftLeast kind) := hleft.forms
    have hright : (form right).Binds (rightLeast kind) := hright.forms
    refine ⟨kind, rfl, .inl ⟨Nat.pos_of_ne_zero hkind, ?_, by simpa [rightLeast] using hright⟩⟩
    by_cases hpower : kind = .power
    · subst hpower
      exact hleft.isUnary
    · simpa [leftLeast, hpower] using hleft
  | assign _ _ htarget hassign hright => exact ⟨_, rfl, .inr (.inl ⟨hassign, htarget, hright.forms⟩)⟩
  | comma _ _ hright => exact ⟨_, rfl, .inr (.inr ⟨rfl, hright.forms⟩)⟩
  | conditional _ hcondition htrue hfalse => exact ⟨hcondition.forms, htrue.forms, hfalse.forms⟩
  | _ => trivial

end ArrayLoops.Grammar

namespace ArrayLoops

open Grammar (Grouped SpellAll words)
open ArrayLoops.Tree (Node)

/-- The operands in a tree that was parsed without complaints need no parentheses, and a text with the
words of the tree and no more has the same tree. -/
theorem parsed_operators_grouped {name text : String} (h : (parse name text).complaints = []) :
    (∀ node, node.Within (parse name text).root → Grouped node) ∧
      ∀ other, SpellAll (Token.list other) (words (parse name text).root ++ [.endOfFile]) →
        (parse name other).complaints = [] ∧
          (parse name other).root.unplaced = (parse name text).root.unplaced := by
  obtain ⟨id, fin, statements, hroot, hall⟩ := Grammar.parse_statements h
  refine ⟨fun node hw => ?_, fun other hspells => ?_⟩
  · have hfile := Grammar.parse_isFile h
    cases node with
    | absent => trivial
    | mk info shape =>
      obtain heq | ⟨level, depth, hphrase⟩ | ⟨kinds, hleaf⟩ := hfile.within hw rfl
      · rw [heq, hroot]
        trivial
      · exact hphrase.grouped
      · cases hleaf <;> trivial
  · rw [hroot, Grammar.words_file] at hspells
    rw [hroot]
    exact (Grammar.parse_words hall hspells (Token.list_rising other)).resolve_right nofun

set_option maxRecDepth 100000 in
theorem parsed_operators_grouped_power :
    let text := "x = a ** -b ** c * (d, e)[0] - f++ ? y => y : z"
    (parse "a.js" text).complaints = [] ∧
      (∀ node, node.Within (parse "a.js" text).root → Grouped node) ∧
      ∀ other, SpellAll (Token.list other) (words (parse "a.js" text).root ++ [.endOfFile]) →
        (parse "a.js" other).complaints = [] ∧
          (parse "a.js" other).root.unplaced = (parse "a.js" text).root.unplaced := by
  intro text
  have hclean : (parse "a.js" text).complaints = [] := by decide +kernel
  exact ⟨hclean, parsed_operators_grouped hclean⟩

end ArrayLoops
