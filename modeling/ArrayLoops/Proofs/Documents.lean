import ArrayLoops.Layout.Doc
import ArrayLoops.Proofs.Written

/-!
# Documents as texts of words

The characters of a document, and which documents are written with given words. Documents are put
together piece by piece; what a piece may be followed by depends on how it ends: with a word that
has to be kept apart from what follows, with something that needs no care, or with a line.
-/

namespace ArrayLoops.Layout

namespace Doc

/-- A text at a level, indented if it is the first of its line. -/
def putText (s : String) (level : Nat) (start : Bool) : List Char × Bool :=
  if s.isEmpty then ([], start)
  else ((if start then List.replicate (level * indentWidth) ' ' else []) ++ s.toList, false)

/-- The characters of a document at a level, and whether it ends a line. `start` says whether a line
ends before it. -/
def put : Doc → Nat → Bool → List Char × Bool
  | empty, _, start | mark _, _, start => ([], start)
  | text s, level, start | leaf _ s, level, start => putText s level start
  | line, _, start => (if start then [] else ['\n'], true)
  | append first second, level, start =>
    let before := first.put level start
    let behind := second.put level before.2
    (before.1 ++ behind.1, behind.2)
  | nest doc, level, start => doc.put (level + 1) start
  | node _ doc, level, start => doc.put level start

theorem write_eq {w : Writer} (hw : w.width = indentWidth) (s : String) : w.write s =
    { w with out := w.out ++ String.ofList (putText s w.level w.atLineStart).1
             atLineStart := (putText s w.level w.atLineStart).2 } := by
  obtain ⟨out, level, width, start⟩ := w
  obtain rfl : width = indentWidth := hw
  unfold Writer.write putText
  split
  · simp
  · cases start <;> simp [Writer.indented, String.append_assoc]

theorem writeTo_eq (doc : Doc) {w : Writer} (hw : w.width = indentWidth) : doc.writeTo w =
    { w with out := w.out ++ String.ofList (doc.put w.level w.atLineStart).1
             atLineStart := (doc.put w.level w.atLineStart).2 } := by
  induction doc generalizing w with
  | empty | mark => simp [writeTo, put]
  | text s | leaf _ s => exact write_eq hw s
  | line =>
    obtain ⟨out, level, width, start⟩ := w
    cases start <;> simp [writeTo, put, Writer.line, String.push_eq_append]
  | append first second ihFirst ihSecond =>
    rw [writeTo, ihFirst hw, ihSecond (by exact hw)]
    simp [put, String.append_assoc]
  | nest doc ih =>
    rw [writeTo, ih (by exact hw)]
    simp [put, Writer.indent, Writer.dedent]
  | node _ doc ih => exact ih hw

theorem render_eq (doc : Doc) : doc.render = String.ofList (doc.put 0 true).1 := by
  rw [render, writeTo_eq doc rfl]
  simp [Writer.new]

end Doc

open Grammar (Spelling Written StartsLine between commas joinFirst)
open Grammar.Spelling (sign)
open Token (Kind Word isDivider)

inductive Ending where
  /-- With a word that what follows must not be read together with. -/
  | word
  | free
  /-- With a line, so that what follows stands on another one. -/
  | line
  deriving DecidableEq, Repr

def Ending.Admits (ws : List Spelling) (rest : List Char) (others : List Spelling) : Ending → Prop
  | .word => ∀ last ∈ ws.getLast?, last.word.Apart rest
  | .free => True
  | .line => StartsLine others

variable {ending : Ending} {a b doc : Doc} {ws vs others : List Spelling} {word : Word}
  {rest cs : List Char}

theorem Ending.Admits.right (h : ending.Admits (ws ++ vs) rest others) :
    ending.Admits vs rest others := by
  cases ending with
  | word =>
    intro last hlast
    exact h last (by rw [List.getLast?_append, Option.mem_def.mp hlast]; rfl)
  | free => trivial
  | line => exact h

/-- The document is written with the words. -/
structure Writes (ending : Ending) (doc : Doc) (ws : List Spelling) : Prop where
  genuine : ∀ word ∈ ws, word.word.Genuine
  stays : ending = .word → ∀ level start, (doc.put level start).2 = false
  written : ∀ level start rest others, Written rest others → ending.Admits ws rest others →
    Written ((doc.put level start).1 ++ rest) (ws ++ others)

/-- In the middle of a line the document begins with a character that divides words. -/
def Opens (doc : Doc) : Prop := ∀ level, ∃ c cs, (doc.put level false).1 = c :: cs ∧ isDivider c

namespace Writes

theorem append (ha : Writes ending a ws) {behind : Ending} (hb : Writes behind b vs)
    (h : ∀ level start rest others, Written rest others → behind.Admits vs rest others →
      ending.Admits ws ((b.put level (a.put level start).2).1 ++ rest) (vs ++ others)) :
    Writes behind (a ++ b) (ws ++ vs) where
  genuine := List.forall_mem_append.mpr ⟨ha.genuine, hb.genuine⟩
  stays he level start := hb.stays he level _
  written level start rest others hrest hadmits := by
    have hbehind := hadmits.right
    rw [List.append_assoc]
    change Written ((a.put level start).1 ++ (b.put level (a.put level start).2).1 ++ rest) _
    rw [List.append_assoc]
    exact ha.written level start _ _ (hb.written level _ rest others hrest hbehind)
      (h level start rest others hrest hbehind)

theorem thenAny (ha : Writes .free a ws) (hb : Writes ending b vs) :
    Writes ending (a ++ b) (ws ++ vs) :=
  ha.append hb fun _ _ _ _ _ _ => trivial

theorem thenOpen (ha : Writes .word a ws) (hopens : Opens b) (hb : Writes ending b vs) :
    Writes ending (a ++ b) (ws ++ vs) := by
  refine ha.append hb fun level start rest _ _ _ last hlast => ?_
  obtain ⟨c, cs, hput, hc⟩ := hopens level
  rw [ha.stays rfl level start, hput, List.cons_append]
  exact (ha.genuine last (List.mem_of_getLast? hlast)).apart_divider hc _

theorem thenLine (ha : Writes .line a ws) (hline : StartsLine vs) (hne : vs ≠ [])
    (hb : Writes ending b vs) : Writes ending (a ++ b) (ws ++ vs) := by
  refine ha.append hb fun _ _ _ others _ _ => ?_
  obtain ⟨first, more, rfl⟩ := List.exists_cons_of_ne_nil hne
  exact hline

theorem thenWord (ha : Writes .word a ws) {first : Spelling} (hb : Writes ending b (first :: vs))
    (h : ∀ last ∈ ws.getLast?, ∀ c, first.word.text.toList.head? = some c → ∀ cs,
      last.word.Apart (c :: cs)) : Writes ending (a ++ b) (ws ++ first :: vs) := by
  refine ha.append hb fun level start rest others hrest hadmits last hlast => ?_
  obtain ⟨c, cs, hcs, hc⟩ := (hb.written level (a.put level start).2 rest others hrest hadmits).head
  have hgenuine := ha.genuine last (List.mem_of_getLast? hlast)
  rw [hcs]
  obtain rfl | rfl | hc := hc
  · exact hgenuine.apart_divider (by decide) _
  · exact hgenuine.apart_divider (by decide) _
  · exact h last hlast c hc cs

theorem thenLines (ha : Writes .line a ws) (hline : StartsLine vs) (hb : Writes .line b vs) :
    Writes .line (a ++ b) (ws ++ vs) := by
  refine ha.append hb fun _ _ _ others _ hothers => ?_
  cases vs with
  | nil => exact hothers
  | cons first more => exact hline

theorem toLine (h : Writes .free doc ws) : Writes .line doc ws :=
  ⟨h.genuine, nofun, fun level start rest others hrest _ =>
    h.written level start rest others hrest trivial⟩

theorem thenEmpty (h : Writes ending doc ws) : Writes ending (doc ++ .empty) ws where
  genuine := h.genuine
  stays := h.stays
  written level start rest others hrest hadmits := by
    change Written ((doc.put level start).1 ++ [] ++ rest) _
    rw [List.append_nil]
    exact h.written level start rest others hrest hadmits

theorem nest (h : Writes ending doc ws) : Writes ending (.nest doc) ws :=
  ⟨h.genuine, fun he level => h.stays he (level + 1), fun level => h.written (level + 1)⟩

theorem line : Writes .line .line [] where
  genuine := nofun
  stays := nofun
  written level start rest others hrest hline := by
    cases start with
    | true => exact hrest
    | false => exact .line hrest hline

theorem unjoin (h : Writes ending doc (joinFirst ws)) : Writes ending doc ws := by
  cases ws with
  | nil => exact h
  | cons first more =>
    refine ⟨?_, h.stays, fun level start rest others hrest hadmits => ?_⟩
    · exact List.forall_mem_cons.mpr (List.forall_mem_cons.mp h.genuine)
    · refine Written.unjoin (h.written level start rest others hrest ?_)
      cases ending with
      | word =>
        intro last hlast
        cases more with
        | nil =>
          cases hlast
          exact hadmits first rfl
        | cons second more => exact hadmits last hlast
      | free => trivial
      | line => exact hadmits

end Writes

theorem Opens.append (h : Opens a) (b : Doc) : Opens (a ++ b) := by
  intro level
  obtain ⟨c, cs, hput, hc⟩ := h level
  exact ⟨c, cs ++ (b.put level (a.put level false).2).1, by
    change (a.put level false).1 ++ _ = _
    rw [hput, List.cons_append], hc⟩

theorem opens_line : Opens .line := fun _ => ⟨'\n', [], rfl, by decide⟩

theorem written_blanks (h : Written cs ws) (count : Nat) :
    Written (List.replicate count ' ' ++ cs) ws := by
  induction count with
  | zero => exact h
  | succ count ih => exact .blank ih

theorem written_putText {s : String} (hs : s ≠ "") {level : Nat} {start : Bool}
    (h : Written (s.toList ++ rest) ws) : Written ((Doc.putText s level start).1 ++ rest) ws := by
  have hfull : s.isEmpty = false := by simpa using hs
  rw [Doc.putText, hfull]
  cases start with
  | false => exact h
  | true =>
    simp only [Bool.false_eq_true, if_false, if_true, List.append_assoc]
    exact written_blanks h _

theorem putText_snd {s : String} (hs : s ≠ "") (level : Nat) (start : Bool) :
    (Doc.putText s level start).2 = false := by
  have hfull : s.isEmpty = false := by simpa using hs
  simp [Doc.putText, hfull]

theorem writes_word {joined : Bool} (h : word.Genuine)
    (hput : ∀ level start, doc.put level start = Doc.putText word.text level start) :
    Writes .word doc [⟨word, joined⟩] := by
  have hs : word.text ≠ "" := fun hnone => h.text_ne_nil (by simp [hnone])
  refine ⟨by simpa using h, fun _ level start => ?_, fun level start rest others hrest hadmits => ?_⟩
  · rw [hput, putText_snd hs]
  · rw [hput]
    exact written_putText hs (.word h (hadmits _ rfl) hrest)

theorem writes_leaf {id : Nat} {joined : Bool} (h : word.Genuine) :
    Writes .word (.leaf id word.text) [⟨word, joined⟩] := writes_word h fun _ _ => rfl

theorem Writes.ofText {s : String} {id : Nat} (h : Writes ending (.text s) ws) :
    Writes ending (.leaf id s) ws := ⟨h.genuine, h.stays, h.written⟩

theorem writes_sign {s : String} {kind : Kind} {joined : Bool} (h : (sign kind).word.Genuine)
    (hs : s = kind.spelling) : Writes .word (.text s) [⟨(sign kind).word, joined⟩] :=
  writes_word h fun _ _ => by rw [hs]; rfl

theorem opens_text {s : String} (h : s.toList.head?.any isDivider) : Opens (.text s) := by
  intro level
  obtain ⟨c, hhead, hc⟩ := (Option.any_eq_true _ _).mp h
  obtain ⟨cs, htext⟩ := List.head?_eq_some_iff.mp hhead
  refine ⟨c, cs, ?_, hc⟩
  have hfull : s.isEmpty = false := by
    refine Bool.eq_false_iff.mpr fun hnone => ?_
    rw [String.isEmpty_iff.mp hnone] at htext
    cases htext
  simp [Doc.put, Doc.putText, hfull, htext]

def isSign (kind : Kind) : Bool := Kind.punctuation.contains kind || kind.isReservedWord

theorem genuine_sign {kind : Kind} (h : isSign kind) : (sign kind).word.Genuine := by
  rw [isSign, Bool.or_eq_true] at h
  obtain hmark | hword := h
  · have hkind := List.contains_iff_mem.mp hmark
    have hnot : ∀ kind ∈ Kind.punctuation, kind.isReservedWord = false := by decide
    simpa [sign, hnot kind hkind] using Word.Genuine.mark hkind
  · have hkind := List.contains_iff_mem.mp hword
    have hname : ∀ kind ∈ Kind.reservedWords,
        kind.spelling = String.ofList (kind.spelling.toList.headD ' ' :: kind.spelling.toList.tail) ∧
          Text.isNameStart (kind.spelling.toList.headD ' ') ∧
          kind.spelling.toList.tail.all Text.isNamePart = true := by decide
    obtain ⟨hspelling, hc, hcs⟩ := hname kind hkind
    rw [List.all_eq_true] at hcs
    have hgenuine := Word.Genuine.name hc hcs
    rw [← hspelling, Kind.ofWord?_spelling kind hkind] at hgenuine
    simpa [sign, hword] using hgenuine

abbrev Glyphs := List (Option Kind)

namespace Glyphs

def chars (glyphs : Glyphs) : List Char :=
  glyphs.flatMap fun glyph => (glyph.map (·.spelling.toList)).getD [' ']

def words (glyphs : Glyphs) : List Word := glyphs.filterMap (·.map fun kind => (sign kind).word)

def areRead : Glyphs → Bool
  | some kind :: rest =>
    isSign kind && (kind.isWhole || rest.isEmpty || (chars rest).head?.any isDivider) && areRead rest
  | none :: rest => areRead rest
  | [] => true

def areClosed (glyphs : Glyphs) : Bool :=
  match glyphs.getLast? with
  | some (some kind) => kind.isWhole
  | _ => true

theorem written {glyphs : Glyphs} (hread : glyphs.areRead)
    (hlast : ∀ kind, glyphs.getLast? = some (some kind) → (sign kind).word.Apart rest)
    (hws : ws.map Spelling.word = glyphs.words) (hrest : Written rest others) :
    Written (glyphs.chars ++ rest) (ws ++ others) := by
  induction glyphs generalizing ws with
  | nil =>
    obtain rfl : ws = [] := List.map_eq_nil_iff.mp hws
    exact hrest
  | cons glyph glyphs ih =>
    have hbehind : ∀ kind, glyphs.getLast? = some (some kind) → (sign kind).word.Apart rest := by
      intro kind hkind
      exact hlast kind (by rw [List.getLast?_cons, hkind]; rfl)
    cases glyph with
    | none => exact .blank (ih hread hbehind hws)
    | some kind =>
      simp only [areRead, Bool.and_eq_true, Bool.or_eq_true] at hread
      obtain ⟨⟨hsign, hapart⟩, hread⟩ := hread
      obtain ⟨word, more, rfl, hword, hmore⟩ := List.map_eq_cons_iff.mp hws
      have hnext : (sign kind).word.Apart (chars glyphs ++ rest) := by
        obtain (hwhole | hnone) | hdivider := hapart
        · exact Word.apart_of_isWhole hwhole _
        · obtain rfl : glyphs = [] := List.isEmpty_iff.mp hnone
          exact hlast kind rfl
        · obtain ⟨c, hhead, hc⟩ := (Option.any_eq_true _ _).mp hdivider
          obtain ⟨cs, hchars⟩ := List.head?_eq_some_iff.mp hhead
          rw [hchars]
          exact (genuine_sign hsign).apart_divider hc _
      have hrow : Written ((sign kind).word.text.toList ++ (chars glyphs ++ rest))
          (⟨(sign kind).word, word.joined⟩ :: (more ++ others)) :=
        .word (genuine_sign hsign) hnext (ih hread hbehind hmore)
      obtain ⟨word, joined⟩ := word
      obtain rfl : word = (sign kind).word := hword
      simpa [chars, sign] using hrow

theorem genuine {glyphs : Glyphs} (hread : glyphs.areRead)
    (hws : ws.map Spelling.word = glyphs.words) : ∀ word ∈ ws, word.word.Genuine := by
  induction glyphs generalizing ws with
  | nil =>
    obtain rfl : ws = [] := List.map_eq_nil_iff.mp hws
    nofun
  | cons glyph glyphs ih =>
    cases glyph with
    | none => exact ih hread hws
    | some kind =>
      simp only [areRead, Bool.and_eq_true] at hread
      obtain ⟨word, more, rfl, hword, hmore⟩ := List.map_eq_cons_iff.mp hws
      exact List.forall_mem_cons.mpr ⟨hword ▸ genuine_sign hread.1.1, ih hread.2 hmore⟩

end Glyphs

theorem writes_text {s : String} (glyphs : Glyphs)
    (hws : ws.map Spelling.word = glyphs.words) (hs : s.toList = glyphs.chars)
    (hread : (!s.isEmpty && glyphs.areRead && glyphs.areClosed) = true) :
    Writes ending (.text s) ws := by
  simp only [Bool.and_eq_true, Bool.not_eq_true'] at hread
  obtain ⟨⟨hfull, hread⟩, hclosed⟩ := hread
  have hne : s ≠ "" := by simpa using hfull
  refine ⟨Glyphs.genuine hread hws, fun _ => putText_snd hne, fun level start rest others hrest _ => ?_⟩
  refine written_putText hne ?_
  rw [hs]
  refine Glyphs.written hread (fun kind hlast => ?_) hws hrest
  rw [Glyphs.areClosed, hlast] at hclosed
  exact Word.apart_of_isWhole hclosed _

theorem writes_row {s : String} (glyphs : Glyphs)
    (hws : ws.map Spelling.word = glyphs.words) (hs : s.toList = glyphs.chars)
    (hread : (!s.isEmpty && glyphs.areRead) = true) : Writes .word (.text s) ws := by
  simp only [Bool.and_eq_true, Bool.not_eq_true'] at hread
  obtain ⟨hfull, hread⟩ := hread
  have hne : s ≠ "" := by simpa using hfull
  refine ⟨Glyphs.genuine hread hws, fun _ => putText_snd hne,
    fun level start rest others hrest hadmits => ?_⟩
  refine written_putText hne ?_
  rw [hs]
  refine Glyphs.written hread (fun kind hlast => ?_) hws hrest
  obtain ⟨front, rfl⟩ := List.getLast?_eq_some_iff.mp hlast
  have hwords : (ws.map Spelling.word).getLast? = some (sign kind).word := by
    rw [hws]
    simp [Glyphs.words]
  rw [List.getLast?_map, Option.map_eq_some_iff] at hwords
  obtain ⟨last, hmem, hword⟩ := hwords
  exact hword ▸ hadmits last hmem

theorem writes_commas {α : Type} {docs : α → Doc} {words : α → List Spelling} {items : List α}
    (hne : items ≠ []) (h : ∀ item ∈ items, Writes .word (docs item) (words item)) :
    Writes .word (.commaSeparated (items.map docs)) (commas (items.map words)) := by
  induction items with
  | nil => exact absurd rfl hne
  | cons item items ih =>
    obtain ⟨hitem, hitems⟩ := List.forall_mem_cons.mp h
    cases items with
    | nil => exact hitem
    | cons next items =>
      have hcomma : Writes .free (.text ", ") [sign .comma] :=
        writes_text [some .comma, none] rfl rfl (by decide)
      have hboth := hitem.thenOpen (opens_text (by decide)) hcomma
      have hall := hboth.thenAny (ih nofun hitems)
      rw [List.append_assoc] at hall
      exact hall

theorem writes_between {first last : String} {opening closing : Kind} {α : Type} {docs : α → Doc}
    {words : α → List Spelling} {items : List α}
    {joined : Bool} (hfirst : Writes .free (.text first) [⟨(sign opening).word, joined⟩])
    (hlast : Writes ending (.text last) [sign closing]) (hopens : Opens (.text last))
    (h : ∀ item ∈ items, Writes .word (docs item) (words item)) :
    Writes ending (.text first ++ .commaSeparated (items.map docs) ++ .text last)
      (⟨(sign opening).word, joined⟩ :: commas (items.map words) ++ [sign closing]) := by
  cases items with
  | nil => exact hfirst.thenEmpty.thenAny hlast
  | cons item items => exact (hfirst.thenAny (writes_commas (List.cons_ne_nil _ _) h)).thenOpen hopens hlast

theorem writes_concat {α : Type} {docs : α → Doc} {words : α → List Spelling} {items : List α}
    (h : ∀ item ∈ items, Writes .line (docs item) (words item))
    (hline : ∀ item ∈ items, StartsLine (words item) ∧ words item ≠ []) :
    Writes .line (.concat (items.map docs)) (items.flatMap words) := by
  induction items with
  | nil => exact ⟨nofun, nofun, fun _ _ _ _ hrest _ => hrest⟩
  | cons item items ih =>
    obtain ⟨hitem, hitems⟩ := List.forall_mem_cons.mp h
    obtain ⟨-, hlines⟩ := List.forall_mem_cons.mp hline
    rw [List.flatMap_cons]
    refine hitem.thenLines ?_ (ih hitems hlines)
    cases items with
    | nil => nofun
    | cons next items =>
      obtain ⟨hfirst, hne⟩ := hlines next List.mem_cons_self
      obtain ⟨word, more, hwords⟩ := List.exists_cons_of_ne_nil hne
      rw [List.flatMap_cons, hwords]
      rw [hwords] at hfirst
      exact hfirst

theorem writes_braced {α : Type} {docs : α → Doc} {words : α → List Spelling} {items : List α}
    (h : ∀ item ∈ items, Writes .line (docs item) (words item))
    (hline : ∀ item ∈ items, StartsLine (words item) ∧ words item ≠ []) {joined : Bool} :
    Writes ending (.braced (items.map docs))
      (⟨(sign .openBrace).word, joined⟩ :: items.flatMap words ++ [sign .closeBrace]) := by
  have hclose : Writes ending (.text "\x7d") [sign .closeBrace] :=
    writes_text [some .closeBrace] rfl rfl (by decide)
  cases items with
  | nil => exact writes_text [some .openBrace, none, some .closeBrace] rfl rfl (by decide)
  | cons item items =>
    have hopen : Writes .free (.text "\x7b") [⟨(sign .openBrace).word, joined⟩] :=
      writes_text [some .openBrace] rfl rfl (by decide)
    have hbody := (writes_concat h hline).nest
    have hfirst : StartsLine ((item :: items).flatMap words) := by
      obtain ⟨hfirst, hne⟩ := hline item List.mem_cons_self
      obtain ⟨word, more, hwords⟩ := List.exists_cons_of_ne_nil hne
      rw [List.flatMap_cons, hwords]
      rw [hwords] at hfirst
      exact hfirst
    exact ((hopen.thenAny .line).thenLines hfirst hbody).thenLine (by simp [StartsLine, sign]) nofun
      hclose

end ArrayLoops.Layout
