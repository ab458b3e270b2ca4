import ArrayLoops.Proofs.ParsedTree
import ArrayLoops.Proofs.Printed
import ArrayLoops.Proofs.Progress

/-!
# Parses of whole files

A parse of any text ends: no bound is met, and what is complained about lies inside the text and is
in order. A parse without complaints has read all of the text. The tree is not much higher than the
square of the number of constructs that may be open, and there are texts whose trees come near to
that: what a chain has opened is closed at its end, so that the chain inside the parentheses at its
head can be as long again.
-/

namespace ArrayLoops

open Token (Kind)
open ArrayLoops.Tree (Info Node Shape)

namespace Grammar

variable {complaint other : Complaint} {complaints : List Complaint}

theorem mem_insertByStart :
    other ∈ insertByStart complaint complaints ↔ other = complaint ∨ other ∈ complaints := by
  induction complaints with
  | nil => simp [insertByStart]
  | cons first rest ih =>
    rw [insertByStart]
    split
    · exact List.mem_cons
    · rw [List.mem_cons, ih, List.mem_cons, or_left_comm]

theorem mem_sortByStart : other ∈ sortByStart complaints ↔ other ∈ complaints := by
  induction complaints with
  | nil => rfl
  | cons complaint rest ih =>
    rw [sortByStart, List.foldr_cons, mem_insertByStart, List.mem_cons]
    exact or_congr_right ih

theorem pairwise_insertByStart (h : complaints.Pairwise (·.start ≤ ·.start)) :
    (insertByStart complaint complaints).Pairwise (·.start ≤ ·.start) := by
  induction complaints with
  | nil => simp [insertByStart]
  | cons first rest ih =>
    obtain ⟨hfirst, hrest⟩ := List.pairwise_cons.mp h
    rw [insertByStart]
    split
    · rename_i hle
      refine List.pairwise_cons.mpr ⟨List.forall_mem_cons.mpr ⟨hle, fun later hl => ?_⟩, h⟩
      exact Nat.le_trans hle (hfirst later hl)
    · rename_i hgt
      refine List.pairwise_cons.mpr ⟨fun later hl => ?_, ih hrest⟩
      obtain rfl | hl := mem_insertByStart.mp hl
      · exact Nat.le_of_not_le hgt
      · exact hfirst later hl

theorem pairwise_sortByStart (complaints : List Complaint) :
    (sortByStart complaints).Pairwise (·.start ≤ ·.start) := by
  induction complaints with
  | nil => exact .nil
  | cons complaint rest ih => exact pairwise_insertByStart ih

theorem start_exhausted (tokens : List Token) : (State.start tokens).exhausted = false := by
  cases tokens <;> rfl

theorem start_within (text : String) :
    (State.start (Token.list text)).Within text.utf8ByteSize := by
  have hall := Token.list_within text
  refine ⟨by rwa [tokens_start], ?_, ?_⟩
  · obtain ⟨first, rest, hlist⟩ := list_eq_cons text
    rw [hlist]
    exact fun complaint hc => absurd hc (by simp [State.start])
  · obtain ⟨first, rest, hlist⟩ := list_eq_cons text
    rw [hlist] at hall ⊢
    exact fun complaint hc => (hall first List.mem_cons_self).complaints complaint
      (List.mem_reverse.mp hc)

theorem goes_statementsOf (text : String) : (statementsOf (Token.list text)).2.exhausted = false ∧
    Lows (NewsApart (Token.list text)) (tall maxDepth - 1) (statementsOf (Token.list text)).1 ∧
      Closed .endOfFile (statementsOf (Token.list text)).2 := by
  let s := State.start (Token.list text)
  let n := fuelFor (Token.list text)
  have hfuel : 8 * s.tokens.length + 8 ≤ n := by
    simp only [s, n, tokens_start, fuelFor]
    omega
  have hsound : Sound (NewsApart (Token.list text)) s :=
    ⟨sourced_start text, fun happart => by rwa [tokens_start]⟩
  have hgoes : Goes (NewsApart (Token.list text)) n 8 0 0 s
      (statementList n .endOfFile (productions n)) fun statements later =>
        Lows (NewsApart (Token.list text)) (tall maxDepth - 1) statements ∧ Closed .endOfFile later :=
    goes_statementsOnto (productions_proceed _ n) (by decide) (by omega) .nil
  obtain ⟨-, hexhausted, hall⟩ := hgoes hsound (start_depth _) hfuel
  exact ⟨hexhausted.trans (start_exhausted _), hall⟩

end Grammar

open Grammar (NewsApart maxDepth statementsOf)

/-- A parse ends without meeting a bound, and complains in order and about places in the text. If it
does not complain, it has read the text to the end. -/
theorem parse_ends_in_text (name text : String) :
    ((Token.list text).getLast?.map (·.kind) = some .endOfFile ∧
        (statementsOf (Token.list text)).2.exhausted = false) ∧
      (parse name text).complaints.Pairwise (·.start ≤ ·.start) ∧
      (∀ complaint ∈ (parse name text).complaints,
        complaint.start + complaint.length ≤ text.utf8ByteSize) ∧
      ((parse name text).complaints = [] →
        (statementsOf (Token.list text)).2.exceeded = false ∧
          (statementsOf (Token.list text)).2.current.kind = .endOfFile ∧
          ∃ id, (parse name text).root =
            .mk ⟨id, 0, text.utf8ByteSize, {}⟩ (.file name (statementsOf (Token.list text)).1)) := by
  obtain ⟨hexhausted, -, hclosed⟩ := Grammar.goes_statementsOf text
  have hwithin := Grammar.State.Within.of_reached (Grammar.reached_statementsOf _) (Grammar.start_within text)
  refine ⟨⟨?_, ?_⟩, Grammar.pairwise_sortByStart _, fun complaint hc => ?_, fun hnone => ?_⟩
  · exact @Token.listFrom_getLast? text.toList _ 0 (Nat.lt_succ_self text.toList.length)
  · exact hexhausted
  · have hc := Grammar.mem_sortByStart.mp hc
    simp only [List.mem_append, List.mem_reverse] at hc
    exact hc.elim (hwithin.complaints complaint) (hwithin.lexical complaint)
  · have hclean := Grammar.parse_clean hnone
    have hend : (statementsOf (Token.list text)).2.current.kind = .endOfFile := by
      obtain hgone | hend | hend := hclosed
      · exact absurd hgone (by simp [hclean.exceeded])
      · exact hend
      · exact hend
    have hfin := (hwithin.tokens _ List.mem_cons_self).ended hend
    refine ⟨hclean.exceeded, hend, (statementsOf (Token.list text)).2.arena.size, ?_⟩
    rw [← hfin]
    rfl

/-- The height of a tree is bounded, however long the text. -/
theorem parsed_tree_height_le {name text : String} (h : NewsApart (Token.list text)) :
    (parse name text).root.height ≤ (maxDepth + 1) * (2 * maxDepth + 1) := by
  obtain ⟨-, hlows, -⟩ := Grammar.goes_statementsOf text
  have hpos := Grammar.tall_pos maxDepth
  have hroot : (parse name text).root.height ≤ Grammar.tall maxDepth - 1 + 1 :=
    Node.height_mk_le fun statement hs => hlows statement hs h
  exact Nat.le_trans hroot (Nat.le_of_eq (Nat.sub_add_cancel hpos))

/-- One `new` may have another among its arguments. -/
theorem parsed_tree_height_le_new :
    NewsApart (Token.list "new A(new B);") ∧
      (parse "a.js" "new A(new B);").root.height ≤ (maxDepth + 1) * (2 * maxDepth + 1) :=
  have h : NewsApart (Token.list "new A(new B);") := by decide +kernel
  ⟨h, parsed_tree_height_le h⟩

namespace Grammar

def chain (head : Node) : Nat → Node
  | 0 => head
  | links + 1 => .mk ⟨0, 0, 0, {}⟩ (.call false (chain head links) true [])

/-- Chains of calls, each as long as there is room for and each in parentheses at the head of the
next. -/
def tower : Nat → Nat → Node
  | _, 0 => .mk ⟨0, 0, 0, {}⟩ (.bare (.token .thisWord))
  | depth, levels + 1 =>
    chain (.mk ⟨0, 0, 0, {}⟩ (.parenthesized (tower (depth + 1) levels))) (room depth)

variable {depth levels links : Nat} {head : Node}

theorem phrase_chain (h : Phrase true .head depth head) (hnew : isOpenNew head = false)
    (hlinks : links ≤ room depth) : Phrase true (.member true links) depth (chain head links) := by
  induction links with
  | zero => exact .ofHead h
  | succ links ih =>
    have hclosed : isOpenNew (chain head links) = false := by
      cases links with
      | zero => exact hnew
      | succ => rfl
    have hroom : Room true (depth + links) := by
      unfold room at hlinks
      exact fun _ => by omega
    exact .call (ih (by omega)) hclosed hroom (by simp)

theorem phrase_tower (h : depth + levels ≤ maxDepth) :
    ∃ links, Phrase true (.member true links) depth (tower depth levels) := by
  induction levels generalizing depth with
  | zero => exact ⟨0, .ofHead (.word rfl)⟩
  | succ levels ih =>
    obtain ⟨links, hinner⟩ := @ih (depth + 1) (by omega)
    have hroom : Room true depth := fun _ => by omega
    have hassignment : Phrase true .assignment depth (tower (depth + 1) levels) :=
      .ofBinary hroom (.ofUnary (.ofOperand (.ofMember hinner)))
    exact ⟨_, phrase_chain (.parenthesized (.ofAssignment hassignment)) rfl (Nat.le_refl _)⟩

theorem height_chain (head : Node) (links : Nat) : (chain head links).height = head.height + links := by
  induction links with
  | zero => rfl
  | succ links ih =>
    rw [chain, Node.height_mk]
    simp [Shape.parts, ih, Nat.add_assoc]

theorem height_tower (depth levels : Nat) :
    (tower depth (levels + 1)).height = (tower (depth + 1) levels).height + 1 + room depth := by
  rw [tower, height_chain, Node.height_mk]
  simp [Shape.parts]

theorem height_unplaced (node : Node) : node.unplaced.height = node.height := by
  induction node with
  | absent => rfl
  | mk info shape ih =>
    have hparts : shape.parts.map (Node.height ∘ Node.unplaced) = shape.parts.map Node.height :=
      List.map_congr_left ih
    rw [Node.unplaced_mk, Node.height_mk, Node.height_mk, Shape.parts_map, List.map_map, hparts]

theorem firstKind?_chain {kind : Kind} (h : firstKind? head = some kind) (links : Nat) :
    firstKind? (chain head links) = some kind := by
  induction links with
  | zero => exact h
  | succ links ih =>
    have hne : words (chain head links) ≠ [] := by
      intro hnone
      rw [firstKind?, hnone] at ih
      cases ih
    rw [chain, firstKind?, words_call, head?_append_left hne]
    exact ih

theorem firstKind?_tower (depth levels : Nat) :
    firstKind? (tower depth (levels + 1)) = some .openParen :=
  firstKind?_chain (by simp [firstKind?, words_parenthesized, between]) _

theorem pointsApart_tower (depth levels : Nat) : Layout.PointsApart (tower depth levels) := by
  induction levels generalizing depth with
  | zero => exact Layout.pointsApart_mk.mpr ⟨by simp [Shape.parts], by simp⟩
  | succ levels ih =>
    rw [tower]
    induction room depth with
    | zero => exact Layout.pointsApart_mk.mpr ⟨by simpa [Shape.parts] using ih (depth + 1), by simp⟩
    | succ links hchain =>
      exact Layout.pointsApart_mk.mpr ⟨by simpa [Shape.parts] using hchain, by simp⟩

theorem exists_text_tower (name : String) (h : levels + 3 ≤ maxDepth) :
    ∃ text, (parse name text).complaints = [] ∧
      (parse name text).root.height = (tower 2 (levels + 1)).height + 2 := by
  let statement := Node.mk ⟨0, 0, 0, {}⟩ (.evaluate (tower 2 (levels + 1)))
  let root := Node.mk ⟨0, 0, 0, {}⟩ (.file name [statement])
  obtain ⟨links, htower⟩ := @phrase_tower 2 (levels + 1) (by omega)
  have hroom : ∀ depth, depth ≤ 1 → Room true depth := fun depth hd _ => by omega
  have hassignment : Phrase true .assignment 1 (tower 2 (levels + 1)) :=
    .ofBinary (hroom 1 (Nat.le_refl 1)) (.ofUnary (.ofOperand (.ofMember htower)))
  have hstatement : Phrase true .statement 0 statement :=
    .evaluate (hroom 0 (Nat.zero_le 1)) (.ofAssignment hassignment)
      (by simp [firstKind?_tower]) (by simp [firstKind?_tower])
  have hpoints : Layout.PointsApart root := by
    refine Layout.pointsApart_mk.mpr ⟨fun part hp => ?_, by simp⟩
    obtain rfl := List.mem_singleton.mp hp
    refine Layout.pointsApart_mk.mpr ⟨fun part hp => ?_, by simp⟩
    obtain rfl := List.mem_singleton.mp hp
    exact pointsApart_tower 2 (levels + 1)
  obtain ⟨hclean, hsame⟩ | ⟨hlimit, -⟩ :=
    Layout.parse_print (fun other ho => List.mem_singleton.mp ho ▸ hstatement) hpoints .empty rfl
  · refine ⟨_, hclean, ?_⟩
    rw [← height_unplaced, hsame, height_unplaced]
    simp [statement, Shape.parts, Node.height_mk]
  · cases hlimit

end Grammar

/-- Nine levels of chains are higher than eight times the number of constructs that may be open. -/
theorem parsed_tree_height_chains :
    ∃ text, (parse "a.js" text).complaints = [] ∧
      8 * (maxDepth + 1) < (parse "a.js" text).root.height := by
  obtain ⟨text, hclean, hheight⟩ := @Grammar.exists_text_tower 8 "a.js" (by decide)
  refine ⟨text, hclean, ?_⟩
  rw [hheight]
  simp only [Grammar.height_tower, Grammar.room, maxDepth]
  omega

end ArrayLoops
