import FluentBuilders.Proofs.Resolve.Invariant
import FluentBuilders.Proofs.Source.Formed
import FluentBuilders.Proofs.Source.Nesting
import FluentBuilders.Proofs.Source.Pieces
import FluentBuilders.Proofs.Syntax.Runs

/-!
# Proofs/Resolve/Segments — what the texts of types are made of

The text of a resolved type is made of **segments**: blanks, marks, names and numbers, literals, and
the qualifiers of names.  They fit together (`Segments.Fits`): a name does not run into what follows
it, and nothing looks like a qualifier that is none.  Every bracket that is opened is closed.
-/

namespace FluentBuilders

/-- **A part of a type's text.** -/
inductive Segment where
  | space (c : Char)
  | mark (m : Mark)
  | name (cs : List Char)
  | string (literal : String)
  | template (text : String)
  | qualifier (module : String)
  deriving DecidableEq

namespace Segment

/-- What a qualifier begins with, in front of its module. -/
def opening : List Char := ['i', 'm', 'p', 'o', 'r', 't', '(', '"']

/-- The text of a segment. -/
def text : Segment → List Char
  | .space c => [c]
  | .mark m => m.text
  | .name cs => cs
  | .string text | .template text => text.toList
  | .qualifier module => opening ++ (module.toList ++ ['"', ')'])

/-- What a segment does to the depth of brackets; nothing closes what is not open. -/
def depth (d : Nat) : Segment → Option Nat
  | .mark m =>
    match m.bracket true with
    | .opens => some (d + 1)
    | .closes => if d = 0 then none else some (d - 1)
    | .none => some d
  | _ => some d

/-- The words that a type follows. -/
def operators : List String := ["keyof", "readonly", "typeof", "unique"]

theorem isRun_of_mem_operators {word : String} (h : word ∈ operators) : Token.IsRun word.toList := by
  have hrun : ∀ word ∈ operators, Token.IsRun word.toList := by decide +kernel
  exact hrun word h

/-- Blanks, and marks that are no brackets. -/
def isGlue : Segment → Bool
  | .space c => Token.isLayout c
  | .mark m => m ≠ .dot && m.bracket true = .none
  | _ => false

/-- What follows a word may make a call of a string literal of it. -/
def mayCall (after : List Char) : Bool :=
  match after.dropWhile Token.isLayout with
  | '(' :: after =>
    match (after.dropWhile Token.isLayout).head? with
    | some c => c == '/' || Piece.isQuote c
    | none => false
  | c :: _ => c == '/'
  | [] => false

/-- No backslash takes along what follows the text. -/
def escapesClosed : List Char → Bool
  | [] => true
  | ['\\'] => false
  | '\\' :: _ :: cs => escapesClosed cs
  | _ :: cs => escapesClosed cs

/-- **The text of a module** between double quotes: it holds none, is on one line, and does not take
the closing quote along. -/
def IsModuleText (module : String) : Prop :=
  '"' ∉ module.toList ∧ '\n' ∉ module.toList ∧ escapesClosed module.toList = true

instance : DecidablePred IsModuleText := fun _ => inferInstanceAs (Decidable (_ ∧ _ ∧ _))

/-- **A segment fits** in front of a text. -/
def FitsBefore : Segment → List Char → Prop
  | .space c, _ => Token.isLayout c = true
  | .mark m, _ => m ≠ .dot
  | .name cs, after => Token.IsRun cs ∧ Token.EndsRun after ∧
      (cs ∈ operators.map String.toList ∨ mayCall after = false)
  | .string literal, _ => Token.Whole (.string literal)
  | .template text, _ => Token.Whole (.template text)
  | .qualifier module, after => IsModuleText module ∧ after.head? = some '.'

end Segment

/-- **Segments in a row.** -/
abbrev Segments := List Segment

namespace Segments

open Segment

/-- The text of segments. -/
def text (segs : Segments) : List Char := segs.flatMap Segment.text

/-- **Segments fit together** in front of a text. -/
def Fits : Segments → List Char → Prop
  | [], _ => True
  | seg :: segs, after => seg.FitsBefore (text segs ++ after) ∧ Fits segs after

/-- The depth of brackets after segments, from a depth on. -/
def depth : Segments → Nat → Option Nat
  | [], d => some d
  | seg :: segs, d => (seg.depth d).bind (depth segs)

/-- **Every bracket is closed**, and none that was open before. -/
def Closed (segs : Segments) : Prop := ∀ d, segs.depth d = some d

@[simp] theorem text_nil : text [] = [] := rfl

@[simp] theorem text_cons (seg : Segment) (segs : Segments) :
    text (seg :: segs) = seg.text ++ text segs := rfl

@[simp] theorem text_append (segs more : Segments) : text (segs ++ more) = text segs ++ text more := by
  simp [text]

@[simp] theorem fits_nil (after : List Char) : Fits [] after := trivial

@[simp] theorem fits_cons {seg : Segment} {segs : Segments} {after : List Char} :
    Fits (seg :: segs) after ↔ seg.FitsBefore (text segs ++ after) ∧ Fits segs after := Iff.rfl

@[simp] theorem fits_append {segs more : Segments} {after : List Char} :
    Fits (segs ++ more) after ↔ Fits segs (text more ++ after) ∧ Fits more after := by
  induction segs with
  | nil => simp
  | cons seg segs ih => simp [ih, and_assoc]

@[simp] theorem depth_nil (d : Nat) : depth [] d = some d := rfl

@[simp] theorem depth_cons (seg : Segment) (segs : Segments) (d : Nat) :
    depth (seg :: segs) d = (seg.depth d).bind (depth segs) := rfl

@[simp] theorem depth_append (segs more : Segments) (d : Nat) :
    depth (segs ++ more) d = (depth segs d).bind (depth more) := by
  induction segs generalizing d with
  | nil => rfl
  | cons seg segs ih => simp only [List.cons_append, depth_cons, Option.bind_assoc, funext ih]

end Segments

/-! ## Ends of types -/

/-- The characters that can follow a type, blanks left out. -/
def typeEnds : List Char := ['[', ']', ')', ',', ';', '>', '&', '|', '\x7d']

/-- **A type can end in front of the text.** -/
def CanEnd (after : List Char) : Prop :=
  ∀ c ∈ (after.dropWhile Token.isLayout).head?, c ∈ typeEnds

namespace CanEnd

variable {c : Char} {after : List Char}

theorem nil : CanEnd [] := nofun

theorem cons (h : c ∈ typeEnds) : CanEnd (c :: after) := by
  have hlayout : ∀ c ∈ typeEnds, Token.isLayout c = false := by decide
  rw [CanEnd, List.dropWhile_cons_of_neg (by simp [hlayout c h])]
  rintro d ⟨⟩
  exact h

theorem blank (h : CanEnd after) : CanEnd (' ' :: after) := by
  rwa [CanEnd, List.dropWhile_cons_of_pos (by decide)]

theorem endsRun (h : CanEnd after) : Token.EndsRun after := by
  intro c hc
  obtain ⟨cs, rfl⟩ := List.head?_eq_some_iff.1 hc
  by_cases hlayout : Token.isLayout c = true
  · simp only [Token.isLayout, Bool.or_eq_true, beq_iff_eq] at hlayout
    rcases hlayout with (((rfl | rfl) | rfl) | rfl) | rfl <;> decide
  · have hends : ∀ c ∈ typeEnds, Token.isNameChar c = false := by decide
    refine hends c (h c ?_)
    rw [List.dropWhile_cons_of_neg hlayout]
    rfl

theorem mayCall (h : CanEnd after) : Segment.mayCall after = false := by
  unfold Segment.mayCall
  split
  · next rest heq => exact absurd (h '(' (by rw [heq]; rfl)) (by decide)
  · next c rest _ heq =>
    have hends : ∀ c ∈ typeEnds, (c == '/') = false := by decide
    exact hends c (h c (by rw [heq]; rfl))
  · rfl

end CanEnd

/-- **A name can end in front of the text**: it cannot be carried on there, nor called. -/
structure NameEnds (after : List Char) : Prop where
  endsRun : Token.EndsRun after
  uncalled : Segment.mayCall after = false

theorem CanEnd.nameEnds {after : List Char} (h : CanEnd after) : NameEnds after :=
  ⟨h.endsRun, h.mayCall⟩

theorem NameEnds.cons {c : Char} (hc : c ∈ [':', '?', '<']) (after : List Char) :
    NameEnds (c :: after) := by
  simp only [List.mem_cons, List.not_mem_nil, or_false] at hc
  rcases hc with rfl | rfl | rfl <;> exact ⟨by rintro c ⟨⟩; decide, rfl⟩

/-! ## Texts of types -/

/-- **A text spelled by segments** of a kind: they fit wherever the text is followed by what it can
be followed by, and close their brackets. -/
def Spelled (ok : Segment → Prop) (ends : List Char → Prop) (x : String) : Prop :=
  ∃ segs : Segments, segs.text = x.toList ∧ (∀ after, ends after → segs.Fits after) ∧ segs.Closed ∧
    ∀ seg ∈ segs, ok seg

/-- **What a name is made of**: anything but marks, quotes and blanks. -/
def IsNameText (name : String) : Prop := Token.IsRun name.toList

namespace Spelled

open Segment

variable {ok : Segment → Prop} {ends ends' : List Char → Prop} {x y : String}

theorem mono (h : Spelled ok ends x) (himp : ∀ after, ends' after → ends after) :
    Spelled ok ends' x := by
  obtain ⟨segs, htext, hfits, hrest⟩ := h
  exact ⟨segs, htext, fun after hafter => hfits after (himp after hafter), hrest⟩

/-- One text after the other. -/
theorem append (h : Spelled ok ends x) (hy : Spelled ok ends' y)
    (hjoin : ∀ after, ends' after → ends (y.toList ++ after)) : Spelled ok ends' (x ++ y) := by
  obtain ⟨segs, htext, hfits, hclosed, hok⟩ := h
  obtain ⟨more, htext', hfits', hclosed', hok'⟩ := hy
  refine ⟨segs ++ more, ?_, fun after hafter => ?_, fun d => ?_, List.forall_mem_append.2 ⟨hok, hok'⟩⟩
  · rw [Segments.text_append, htext, htext', String.toList_append]
  · rw [Segments.fits_append, htext']
    exact ⟨hfits _ (hjoin after hafter), hfits' after hafter⟩
  · rw [Segments.depth_append, hclosed d, Option.bind_some, hclosed' d]

theorem empty : Spelled ok ends "" :=
  ⟨[], rfl, fun _ _ => trivial, fun _ => rfl, List.forall_mem_nil _⟩

theorem name (h : IsNameText x) (hok : ok (.name x.toList)) : Spelled ok NameEnds x :=
  ⟨[.name x.toList], by simp [Segment.text],
    fun _ hafter => ⟨⟨h, hafter.endsRun, .inr hafter.uncalled⟩, trivial⟩,
    fun _ => rfl, List.forall_mem_singleton.2 hok⟩

theorem string (h : Token.Whole (.string x)) (hok : ok (.string x)) : Spelled ok ends x :=
  ⟨[.string x], by simp [Segment.text], fun _ _ => ⟨h, trivial⟩, fun _ => rfl,
    List.forall_mem_singleton.2 hok⟩

theorem template (h : Token.Whole (.template x)) (hok : ok (.template x)) : Spelled ok ends x :=
  ⟨[.template x], by simp [Segment.text], fun _ _ => ⟨h, trivial⟩, fun _ => rfl,
    List.forall_mem_singleton.2 hok⟩

/-- **Blanks and marks** that are no brackets. -/
theorem glue (segs : Segments) (hx : segs.text = x.toList) (h : ∀ seg ∈ segs, seg.isGlue = true)
    (hok : ∀ seg ∈ segs, ok seg) : Spelled ok ends x := by
  refine ⟨segs, hx, fun after _ => ?_, fun d => ?_, hok⟩
  · clear hok hx
    induction segs with
    | nil => trivial
    | cons seg segs ih =>
      obtain ⟨hseg, hsegs⟩ := List.forall_mem_cons.1 h
      refine ⟨?_, ih hsegs⟩
      cases seg with
      | space c => exact hseg
      | mark m =>
        have hm : m ≠ .dot ∧ m.bracket true = .none := by simpa [isGlue] using hseg
        exact hm.1
      | name | string | template | qualifier => cases hseg
  · clear hok hx
    induction segs with
    | nil => rfl
    | cons seg segs ih =>
      obtain ⟨hseg, hsegs⟩ := List.forall_mem_cons.1 h
      cases seg with
      | space c => exact ih hsegs
      | mark m =>
        have hm : m ≠ .dot ∧ m.bracket true = .none := by simpa [isGlue] using hseg
        simpa [Segment.depth, hm.2] using ih hsegs
      | name | string | template | qualifier => cases hseg

/-- **A text between brackets.** -/
theorem enclosed {first last : Mark} (hfirst : first.bracket true = .opens)
    (hlast : last.bracket true = .closes) (hok : ok (.mark first)) (hok' : ok (.mark last))
    (h : Spelled ok ends x) (hends : ∀ after, ends (last.text ++ after)) :
    Spelled ok ends' (String.ofList first.text ++ x ++ String.ofList last.text) := by
  obtain ⟨segs, htext, hfits, hclosed, hsegs⟩ := h
  refine ⟨.mark first :: (segs ++ [Segment.mark last]), ?_, fun after _ => ?_, fun d => ?_, ?_⟩
  · simp [Segment.text, htext]
  · have hfirst' : first ≠ .dot := by rintro rfl; cases hfirst
    have hlast' : last ≠ .dot := by rintro rfl; cases hlast
    rw [Segments.fits_cons, Segments.fits_append]
    refine ⟨hfirst', hfits _ ?_, hlast', trivial⟩
    simpa [Segment.text] using hends after
  · simp [Segment.depth, hfirst, hlast, hclosed (d + 1)]
  · exact List.forall_mem_cons.2 ⟨hok, List.forall_mem_append.2
      ⟨hsegs, List.forall_mem_singleton.2 hok'⟩⟩

/-- A word that a type follows. -/
theorem operator {word : String} (hword : word ∈ operators) (hok : ∀ seg, ok seg) :
    Spelled ok ends (word ++ " ") := by
  refine ⟨[.name word.toList, .space ' '], by simp [Segment.text], fun after _ => ?_, fun _ => rfl,
    fun seg _ => hok seg⟩
  refine ⟨⟨isRun_of_mem_operators hword, ?_, .inl (List.mem_map_of_mem hword)⟩, rfl, trivial⟩
  rintro c ⟨⟩
  decide

/-- A text in parentheses. -/
theorem parens (h : Spelled ok CanEnd x) (hok : ∀ m, ok (.mark m)) :
    Spelled ok ends ("(" ++ x ++ ")") :=
  @enclosed _ _ _ _ .openParen .closeParen rfl rfl (hok _) (hok _) h fun _ => .cons (by decide)

/-- A text in angle brackets. -/
theorem angles (h : Spelled ok CanEnd x) (hok : ∀ m, ok (.mark m)) :
    Spelled ok ends ("<" ++ x ++ ">") :=
  @enclosed _ _ _ _ .openAngle .closeAngle rfl rfl (hok _) (hok _) h fun _ => .cons (by decide)

/-- A text in square brackets. -/
theorem brackets (h : Spelled ok CanEnd x) (hok : ∀ m, ok (.mark m)) :
    Spelled ok ends ("[" ++ x ++ "]") :=
  @enclosed _ _ _ _ .openBracket .closeBracket rfl rfl (hok _) (hok _) h fun _ => .cons (by decide)

/-- Texts with a separator between them. -/
theorem intercalate (hy : ∀ {ends}, Spelled ok ends y)
    (hends : ∀ after, ends (y.toList ++ after)) {texts : List String}
    (h : ∀ x ∈ texts, Spelled ok ends x) : Spelled ok ends (String.intercalate y texts) := by
  induction texts with
  | nil => exact empty
  | cons x texts ih =>
    obtain ⟨hx, hrest⟩ := List.forall_mem_cons.1 h
    cases texts with
    | nil => simpa using hx
    | cons z texts =>
      rw [String.intercalate_cons_cons]
      refine (hx.append (@hy fun _ => True) fun after _ => hends after).append (ih hrest) ?_
      exact fun _ _ => trivial

/-- **A qualified name.** -/
theorem qualified {module : String} (hmodule : Segment.IsModuleText module) (hname : IsNameText x)
    (hok : ok (.qualifier module)) (hok' : ok (.name ('.' :: x.toList))) :
    Spelled ok NameEnds ("import(\"" ++ module ++ "\")." ++ x) := by
  refine ⟨[.qualifier module, .name ('.' :: x.toList)], by simp [Segment.text, opening],
    fun after hafter => ?_, fun _ => rfl,
    List.forall_mem_cons.2 ⟨hok, List.forall_mem_singleton.2 hok'⟩⟩
  exact ⟨⟨hmodule, rfl⟩, ⟨List.forall_mem_cons.2 ⟨by decide, hname⟩, hafter.endsRun,
    .inr hafter.uncalled⟩, trivial⟩

end Spelled

/-! ## Names -/

theorem isNameText_of_all {p : Char → Bool} (hp : ∀ c ∈ Token.special, p c = false) {x : String}
    (h : ∀ c ∈ x.toList, p c = true) : IsNameText x := by
  intro c hc
  by_contra hspecial
  rw [Token.isNameChar, Bool.not_eq_true', Bool.not_eq_false, List.contains_iff_mem] at hspecial
  have htrue := h c hc
  rw [hp c hspecial] at htrue
  cases htrue

theorem isNameText_of_isAtom {x : String} (h : Token.IsAtom x.toList) : IsNameText x :=
  isNameText_of_all (by decide) h

theorem isNameText_of_isNameOver {cs : List Char} (h : Text.isNameOver Text.isNamePart cs = true) :
    IsNameText (String.ofList cs) := by
  refine isNameText_of_all (p := Text.isNamePart) (by decide) ?_
  rw [String.toList_ofList]
  cases cs with
  | nil => cases h
  | cons c cs =>
    rw [Text.isNameOver, Bool.and_eq_true, List.all_eq_true] at h
    exact List.forall_mem_cons.2 ⟨Text.isNamePart_of_isIdentifierPart
      (Text.isIdentifierPart_of_isIdentifierStart h.1), h.2⟩

theorem isNameText_of_isDigit {x : String} (h : ∀ c ∈ x.toList, Text.isDigit c = true) :
    IsNameText x := isNameText_of_all (by decide) h

theorem isNameText_of_isAsciiName {x : String} (h : isAsciiName x = true) : IsNameText x :=
  isNameText_of_isAtom (isAtom_of_isAsciiName h)

theorem isNameText_of_dotted {x : String} (h : DottedBy (isAsciiName ·) x) : IsNameText x := by
  have hparts : ∀ cs ∈ x.toList.splitOn '.', ∀ c ∈ cs, Token.isNameChar c = true := by
    intro cs hcs
    simpa [IsNameText, Token.IsRun] using isNameText_of_isAsciiName (h _ (List.mem_map_of_mem hcs))
  have hjoined : ∀ parts : List (List Char),
      (∀ cs ∈ parts, ∀ c ∈ cs, Token.isNameChar c = true) →
        ∀ c ∈ ['.'].intercalate parts, Token.isNameChar c = true := by
    intro parts hparts
    induction parts with
    | nil => exact List.forall_mem_nil _
    | cons cs parts ih =>
      obtain ⟨hcs, hrest⟩ := List.forall_mem_cons.1 hparts
      have htail := ih hrest
      cases parts with
      | nil => simpa [List.intercalate] using hcs
      | cons ds parts =>
        have hdot : Token.isNameChar '.' = true := by decide
        simp only [List.intercalate, List.intersperse, List.flatten_cons, List.forall_mem_append]
          at htail ⊢
        exact ⟨hcs, List.forall_mem_singleton.2 hdot, htail⟩
  rw [IsNameText, ← @List.intercalate_splitOn _ x.toList _ _ '.']
  exact hjoined _ hparts

/-! ## Constituents -/

/-- Anything but a blank. -/
def Segment.IsSolid (seg : Segment) : Prop := ∀ c, seg ≠ .space c

/-- **A type whose text is spelled by segments**, some, without blanks between them, where it is a
primitive type and not kept as it was written. -/
structure ResolvedType.IsSpelled (t : ResolvedType) : Prop where
  spelled : Spelled (fun _ => True) CanEnd t.text
  solid : t.kind.isPrimitive = true → t.kind ≠ .raw →
    Spelled Segment.IsSolid CanEnd t.text ∧ t.text ≠ ""

/-- So is its element, if it is an array. -/
def ResolvedType.AreSpelled (t : ResolvedType) : Prop :=
  t.IsSpelled ∧ ∀ element ∈ t.element?, element.IsSpelled

namespace Spelled

variable {t : ResolvedType} {texts : List String}

theorem mono_ok {ok ok' : Segment → Prop} {ends : List Char → Prop} {x : String}
    (h : Spelled ok ends x) (himp : ∀ seg, ok seg → ok' seg) : Spelled ok' ends x := by
  obtain ⟨segs, htext, hfits, hclosed, hok⟩ := h
  exact ⟨segs, htext, hfits, hclosed, fun seg hseg => himp seg (hok seg hseg)⟩

theorem areSpelled_of_solid {text : String} {kind : TypeKind}
    (h : Spelled Segment.IsSolid CanEnd text) (hne : text ≠ "") :
    (ResolvedType.plain text kind).AreSpelled :=
  ⟨⟨h.mono_ok fun _ _ => trivial, fun _ _ => ⟨h, hne⟩⟩, nofun⟩

theorem areSpelled {text : String} {kind : TypeKind} (h : Spelled (fun _ => True) CanEnd text)
    (hkind : kind.isPrimitive = false ∨ kind = .raw) : (ResolvedType.plain text kind).AreSpelled := by
  refine ⟨⟨h, fun hprimitive hraw => ?_⟩, nofun⟩
  rcases hkind with hkind | hkind
  · exact absurd (hkind.symm.trans hprimitive) nofun
  · exact absurd hkind hraw

theorem operandText (h : t.IsSpelled) : Spelled (fun _ => True) CanEnd t.operandText := by
  unfold ResolvedType.operandText
  split
  · exact parens h.spelled fun _ => trivial
  · exact h.spelled

theorem commas {ok : Segment → Prop} (hok : ∀ seg, ok seg) (h : ∀ x ∈ texts, Spelled ok CanEnd x) :
    Spelled ok CanEnd (String.intercalate ", " texts) :=
  intercalate (glue [.mark .comma, .space ' '] rfl (by decide) fun seg _ => hok seg)
    (fun _ => .cons (by decide)) h

theorem bars {ok : Segment → Prop} (hok : ∀ seg, ok seg) (h : ∀ x ∈ texts, Spelled ok CanEnd x) :
    Spelled ok CanEnd (String.intercalate " | " texts) :=
  intercalate (glue [.space ' ', .mark .bar, .space ' '] rfl (by decide) fun seg _ => hok seg)
    (fun _ => CanEnd.blank (.cons (by decide))) h

theorem ampersands {ok : Segment → Prop} (hok : ∀ seg, ok seg)
    (h : ∀ x ∈ texts, Spelled ok CanEnd x) :
    Spelled ok CanEnd (String.intercalate " & " texts) :=
  intercalate (glue [.space ' ', .mark .ampersand, .space ' '] rfl (by decide) fun seg _ => hok seg)
    (fun _ => CanEnd.blank (.cons (by decide))) h

theorem single {types : List ResolvedType} (h : ∀ t ∈ types, t.AreSpelled) :
    (FluentBuilders.single types).AreSpelled := by
  have hname : ∀ x ∈ ["never", "boolean"], Spelled Segment.IsSolid CanEnd x := by
    intro x hx
    have hchars : ∀ x ∈ ["never", "boolean"], IsNameText x := by unfold IsNameText; decide
    exact (name (hchars x hx) nofun).mono fun _ => CanEnd.nameEnds
  unfold FluentBuilders.single
  split
  · exact areSpelled_of_solid (hname _ (by decide)) (by decide)
  · exact h _ (List.mem_singleton_self _)
  · have htexts : ∀ x ∈ types.map (·.text), Spelled (fun _ => True) CanEnd x :=
      List.forall_mem_map.2 fun t ht => (h t ht).1.spelled
    dsimp only
    split
    · split
      · exact areSpelled_of_solid (hname _ (by decide)) (by decide)
      · refine areSpelled (bars (fun _ => trivial) fun x hx => ?_) (.inl rfl)
        obtain ⟨y, hy, rfl⟩ := List.mem_map.1 hx
        split
        · exact (hname _ (by decide)).mono_ok fun _ _ => trivial
        · exact htexts y (List.mem_filter.1 hy).1
    · exact areSpelled (bars (fun _ => trivial) htexts) (.inl rfl)

end Spelled

/-! ## Names with arguments, parameters, members -/

section

variable {s : Scope} {name : String} {texts : List String} {arguments : List (List ResolvedType)}

theorem spelled_singles (h : ∀ types ∈ arguments, ∀ t ∈ types, t.AreSpelled) :
    Spelled (fun _ => True) CanEnd
      (String.intercalate ", " (arguments.map fun types => (single types).text)) :=
  .commas (fun _ => trivial) (List.forall_mem_map.2 fun types htypes =>
    (Spelled.single (h types htypes)).1.spelled)

theorem spelled_argumentsText (h : ∀ types ∈ arguments, ∀ t ∈ types, t.AreSpelled) :
    Spelled (fun _ => True) CanEnd (argumentsText arguments) := by
  unfold argumentsText
  split
  · exact .empty
  · exact .angles (spelled_singles h) fun _ => trivial

/-- Arguments end a name. -/
theorem nameEnds_argumentsText {after : List Char} (h : CanEnd after) :
    NameEnds ((argumentsText arguments).toList ++ after) := by
  unfold argumentsText
  split
  · exact h.nameEnds
  · simpa using NameEnds.cons (by decide) _

theorem areSpelled_named {x : String} {kind : TypeKind}
    (h : ∀ types ∈ arguments, ∀ t ∈ types, t.AreSpelled)
    (hx : Spelled (fun _ => True) NameEnds x) (hkind : kind.isPrimitive = false) :
    (ResolvedType.plain (x ++ argumentsText arguments) kind).AreSpelled :=
  Spelled.areSpelled (hx.append (spelled_argumentsText h) fun _ => nameEnds_argumentsText)
    (.inl hkind)

/-- **A parameter as it is written**: it begins with its name. -/
def IsParameterText (x : String) : Prop :=
  Spelled (fun _ => True) CanEnd x ∧ ∃ c ∈ x.toList.head?, Token.isNameChar c = true

/-- **A member as it is written**: whatever may follow it. -/
def IsMemberText (x : String) : Prop := ∀ {ends}, Spelled (fun _ => True) ends x

theorem spelled_signatureText {ends : List Char → Prop} (h : ∀ x ∈ texts, IsParameterText x) :
    Spelled (fun _ => True) ends (signatureText texts) :=
  .parens (.commas (fun _ => trivial) fun x hx => (h x hx).1) fun _ => trivial

theorem isQuote_of_isNameChar {c : Char} (h : Token.isNameChar c = true) :
    Piece.isQuote c = false := by
  refine Token.eq_false_of_isNameChar (fun hc => ?_) h
  simp only [Piece.isQuote, Bool.or_eq_true, beq_iff_eq] at hc
  rcases hc with (rfl | rfl) | rfl <;> decide

/-- Parameters make no call of a string literal. -/
theorem mayCall_of_head? {cs : List Char} (h : ∃ c ∈ cs.head?, Token.isNameChar c = true ∨ c = ')') :
    Segment.mayCall ('(' :: cs) = false := by
  obtain ⟨c, hc, hchar⟩ := h
  obtain ⟨cs, rfl⟩ := List.head?_eq_some_iff.1 hc
  have hplain : Token.isLayout c = false ∧ (c == '/') = false ∧ Piece.isQuote c = false := by
    rcases hchar with hchar | rfl
    · refine ⟨Token.eq_false_of_isNameChar Token.mem_special_of_isLayout hchar, ?_,
        isQuote_of_isNameChar hchar⟩
      rw [beq_eq_false_iff_ne]
      rintro rfl
      exact absurd hchar (by decide)
    · decide
  have hopen : ('(' :: c :: cs).dropWhile Token.isLayout = '(' :: c :: cs := rfl
  have hhead : (c :: cs).dropWhile Token.isLayout = c :: cs :=
    List.dropWhile_cons_of_neg (by simp [hplain.1])
  simp [Segment.mayCall, hopen, hhead, hplain.2]

theorem head?_intercalate {y x : String} (h : ∃ c ∈ x.toList.head?, Token.isNameChar c = true) :
    ∃ c ∈ (String.intercalate y (x :: texts)).toList.head?, Token.isNameChar c = true := by
  obtain ⟨c, hc, hchar⟩ := h
  refine ⟨c, ?_, hchar⟩
  cases texts with
  | nil => simpa using hc
  | cons z texts =>
    rw [String.intercalate_cons_cons, String.toList_append, String.toList_append, List.append_assoc,
      List.head?_append, hc]
    rfl

/-- **Parameters end a name**, and are no call of it. -/
theorem nameEnds_signatureText (h : ∀ x ∈ texts, IsParameterText x) (after : List Char) :
    NameEnds ((signatureText texts).toList ++ after) := by
  have htext : (signatureText texts).toList ++ after =
      '(' :: ((String.intercalate ", " texts).toList ++ ')' :: after) := by
    simp [signatureText, -String.toList_intercalate]
  rw [htext]
  refine ⟨by rintro c ⟨⟩; decide, mayCall_of_head? ?_⟩
  cases texts with
  | nil => exact ⟨')', rfl, .inr rfl⟩
  | cons x texts =>
    obtain ⟨c, hc, hchar⟩ := @head?_intercalate texts ", " x (h x List.mem_cons_self).2
    exact ⟨c, by rw [List.head?_append, hc]; rfl, .inl hchar⟩

theorem spelled_optionalSuffix {ends : List Char → Prop} (optional : Bool) :
    Spelled (fun _ => True) ends (optionalSuffix optional) := by
  cases optional with
  | false => exact .empty
  | true => exact .glue [.mark .question] rfl (by decide) fun _ _ => trivial

theorem spelled_readonlyWord {ends : List Char → Prop} (readonly : Bool) :
    Spelled (fun _ => True) ends (readonlyWord readonly) := by
  cases readonly with
  | false => exact .empty
  | true => exact @Spelled.operator _ _ "readonly" (by decide) fun _ => trivial

theorem spelled_colon {ends : List Char → Prop} : Spelled (fun _ => True) ends ": " :=
  .glue [.mark .colon, .space ' '] rfl (by decide) fun _ _ => trivial

theorem spelled_ellipsis {ends : List Char → Prop} : Spelled (fun _ => True) ends "..." :=
  .glue [.mark .ellipsis] rfl (by decide) fun _ _ => trivial

theorem spelled_semicolon {ends : List Char → Prop} : Spelled (fun _ => True) ends ";" :=
  .glue [.mark .semicolon] rfl (by decide) fun _ _ => trivial

/-- The mark of something optional and a colon end a name. -/
theorem nameEnds_optionalSuffix (optional : Bool) (after : List Char) :
    NameEnds ((optionalSuffix optional).toList ++ (':' :: after)) := by
  cases optional with
  | false => exact .cons (by decide) _
  | true => exact .cons (by decide) _

/-- A name, the mark of something optional, a colon, and a type. -/
theorem spelled_annotated {x y : String} (optional : Bool)
    (hx : Spelled (fun _ => True) NameEnds x) (hy : Spelled (fun _ => True) CanEnd y) :
    Spelled (fun _ => True) CanEnd (x ++ optionalSuffix optional ++ ": " ++ y) := by
  have hsuffix := @spelled_optionalSuffix (fun after => ∃ rest, after = ':' :: rest) optional
  refine ((hx.append hsuffix ?_).append (@spelled_colon fun _ => True) ?_).append hy
    fun _ _ => trivial
  · rintro _ ⟨rest, rfl⟩
    exact nameEnds_optionalSuffix optional rest
  · exact fun after _ => ⟨' ' :: after, rfl⟩

theorem NameEnds.lineBreak {after : List Char} (h : NameEnds after) : NameEnds ('\n' :: after) := by
  refine ⟨by rintro c ⟨⟩; decide, ?_⟩
  have hbreak : ('\n' :: after).dropWhile Token.isLayout = after.dropWhile Token.isLayout :=
    List.dropWhile_cons_of_pos (by decide)
  rw [Segment.mayCall, hbreak]
  exact h.uncalled

/-- **A property key**: a name, perhaps with a line break after it, or a string literal. -/
theorem spelled_propertyKey (name : String) :
    Spelled (fun _ => True) NameEnds (propertyKey name) := by
  unfold propertyKey
  split
  · next h =>
    rw [Bool.or_eq_true, Bool.and_eq_true, List.all_eq_true] at h
    rcases h with h | h
    · unfold Text.isPropertyIdentifier Text.dropFinalBreak at h
      split at h
      · next hlast =>
        have hsplit : name = String.ofList name.toList.dropLast ++ "\n" := by
          apply String.toList_injective
          rw [String.toList_append, String.toList_ofList]
          exact (List.dropLast_append_getLast? '\n' hlast).symm
        rw [hsplit]
        exact (Spelled.name (isNameText_of_isNameOver h) trivial).append
          (.glue [.space '\n'] rfl (by decide) fun _ _ => trivial) fun _ => NameEnds.lineBreak
      · rw [← String.ofList_toList (s := name)]
        exact .name (isNameText_of_isNameOver h) trivial
    · exact .name (isNameText_of_isDigit h.2) trivial
  · exact .string (Token.whole_typeLiteral name) trivial

theorem isMemberText_index {key k v : String} (readonly : Bool) (hkey : IsNameText key)
    (hk : Spelled (fun _ => True) CanEnd k) (hv : Spelled (fun _ => True) CanEnd v) :
    IsMemberText (readonlyWord readonly ++ "[" ++ key ++ ": " ++ k ++ "]: " ++ v ++ ";") := by
  intro ends
  have hinner : Spelled (fun _ => True) CanEnd (key ++ optionalSuffix false ++ ": " ++ k) :=
    spelled_annotated false (.name hkey trivial) hk
  have hblock := @Spelled.brackets _ (fun _ => True) _ hinner fun _ => trivial
  have htype := (@spelled_colon fun _ => True).append hv fun _ _ => trivial
  have hend := htype.append (@spelled_semicolon ends) fun after _ => .cons (by decide)
  have hall := ((@spelled_readonlyWord (fun _ => True) readonly).append hblock fun _ _ => trivial).append
    hend fun _ _ => trivial
  convert hall using 1
  apply String.toList_injective
  simp [optionalSuffix]

theorem isMemberText_method {name r : String} (optional : Bool) (h : ∀ x ∈ texts, IsParameterText x)
    (hr : Spelled (fun _ => True) CanEnd r) :
    IsMemberText (propertyKey name ++ optionalSuffix optional ++ signatureText texts ++ ": " ++ r ++
      ";") := by
  intro ends
  have hsignature := @spelled_signatureText _ (fun _ => True) h
  have hhead : Spelled (fun _ => True) (fun _ => True)
      (propertyKey name ++ (optionalSuffix optional ++ signatureText texts)) := by
    refine (spelled_propertyKey name).append
      ((@spelled_optionalSuffix (fun _ => True) optional).append hsignature fun _ _ => trivial) ?_
    intro after _
    rw [String.toList_append, List.append_assoc]
    cases optional with
    | false => exact nameEnds_signatureText h after
    | true => exact .cons (by decide) _
  have htype := (@spelled_colon fun _ => True).append hr fun _ _ => trivial
  have hend := htype.append (@spelled_semicolon ends) fun after _ => .cons (by decide)
  have hall := hhead.append hend fun _ _ => trivial
  simpa only [String.append_assoc] using hall

theorem isMemberText_property {name x : String} (optional readonly : Bool)
    (hx : Spelled (fun _ => True) CanEnd x) :
    IsMemberText (readonlyWord readonly ++ propertyKey name ++ optionalSuffix optional ++ ": " ++ x ++
      ";") := by
  intro ends
  have hbody := (spelled_annotated optional (spelled_propertyKey name) hx).append
    (@spelled_semicolon ends) fun after _ => .cons (by decide)
  have hall := (@spelled_readonlyWord (fun _ => True) readonly).append hbody fun _ _ => trivial
  simpa only [String.append_assoc] using hall

theorem isParameterText_parameterText {x : String} (optional rest : Bool)
    (hname : isAsciiName name = true) (hx : Spelled (fun _ => True) CanEnd x) :
    IsParameterText (parameterText name optional rest x) := by
  have hbody := spelled_annotated optional (.name (isNameText_of_isAsciiName hname) trivial) hx
  constructor
  · cases rest with
    | false => simpa [parameterText, String.append_assoc] using hbody
    | true =>
      have hall := (@spelled_ellipsis fun _ => True).append hbody fun _ _ => trivial
      simpa [parameterText, String.append_assoc] using hall
  · cases rest with
    | true => exact ⟨'.', by simp [parameterText], by decide⟩
    | false =>
      cases hchars : name.toList with
      | nil => rw [isAsciiName, hchars] at hname; cases hname
      | cons c cs =>
        refine ⟨c, by simp [parameterText, hchars], isNameText_of_isAsciiName hname c ?_⟩
        rw [hchars]
        exact List.mem_cons_self

/-- A body is a text in braces. -/
theorem exists_bodyText (h : ∀ x ∈ texts, IsMemberText x) : ∃ x, Spelled (fun _ => True) CanEnd x ∧
    bodyText texts = String.ofList Mark.openBrace.text ++ x ++ String.ofList Mark.closeBrace.text := by
  unfold bodyText
  split
  · exact ⟨"", .empty, rfl⟩
  · have hspace : ∀ {ends}, Spelled (fun _ => True) ends " " :=
      .glue [.space ' '] rfl (by decide) fun _ _ => trivial
    have hmembers : Spelled (fun _ => True) (fun _ => True) (String.intercalate " " texts) :=
      .intercalate hspace (fun _ => trivial) fun x hx => h x hx
    refine ⟨_, ((@hspace fun _ => True).append hmembers fun _ _ => trivial).append
      (@hspace CanEnd) fun _ _ => trivial, ?_⟩
    apply String.toList_injective
    simp [Mark.text, -String.toList_intercalate]

theorem spelled_bodyText (h : ∀ x ∈ texts, IsMemberText x) :
    Spelled (fun _ => True) CanEnd (bodyText texts) := by
  obtain ⟨x, hx, htext⟩ := exists_bodyText h
  rw [htext]
  exact .enclosed rfl rfl trivial trivial hx fun after => .cons (by decide)

end

/-! ## Sources whose types are spelled by segments -/

namespace Contents

/-- **A name comes from a module**: it was imported from there, or stands for the whole module. -/
def ComesFrom (c : Contents) (name module : String) : Prop :=
  c.namespaceModule? name = some module ∨ ∃ exported, c.imported? name = some (module, exported)

theorem ComesFrom.exists_import {c : Contents} {name module : String} (h : c.ComesFrom name module) :
    ∃ d ∈ c.imports, d.module = module := by
  rcases h with hnamespace | ⟨exported, himported⟩
  · obtain ⟨d, hd, rfl⟩ := Option.map_eq_some_iff.1 hnamespace
    exact ⟨d, List.mem_of_find?_eq_some hd, rfl⟩
  · obtain ⟨d, hd, hfound⟩ := List.exists_of_findSome?_eq_some himported
    refine ⟨d, hd, ?_⟩
    split at hfound
    · cases hfound
      rfl
    · split at hfound <;> cases hfound
      rfl

end Contents

/-- **A type that segments spell**, apart from the types in it: text that is kept as it is closes its
brackets and literals, and modules can stand between double quotes. -/
def TypeNode.IsTame (s : Scope) : TypeNode → Prop
  | .raw text => Spelled (fun _ => True) CanEnd text
  | .imported module _ _ => Segment.IsModuleText (resolveModule module s.directory)
  | .reference name _ => ResolvedType.intrinsics.lookup name = none →
    ∀ module, s.contents.ComesFrom (splitHead name).1 module → Segment.IsModuleText module
  | _ => True

/-- **A type that segments spell.** -/
def TypeNode.Tame (s : Scope) (t : TypeNode) : Prop := ∀ u ∈ t.subterms, u.IsTame s

/-- **A file whose types segments spell.** -/
structure Scope.Tame (s : Scope) : Prop where
  modulePath : Segment.IsModuleText s.modulePath
  types : ∀ t ∈ s.contents.types, t.Tame s

section

variable {s : Scope} {name module : String}

theorem spelled_qualify (hs : s.Tame) {ok : Segment → Prop} (hmodule : Segment.IsModuleText module)
    (hname : IsNameText name) (hok : ∀ module, ok (.qualifier module)) (hok' : ∀ cs, ok (.name cs)) :
    Spelled ok NameEnds (s.qualify name module) := by
  unfold Scope.qualify
  split
  · exact .qualified hs.modulePath hname (hok _) (hok' _)
  · exact .qualified hmodule hname (hok _) (hok' _)

theorem spelled_ownName (hs : s.Tame) {ok : Segment → Prop} (hname : IsNameText name)
    (hok : ∀ module, ok (.qualifier module)) (hok' : ∀ cs, ok (.name cs)) :
    Spelled ok NameEnds (s.ownName name) := spelled_qualify hs hs.modulePath hname hok hok'

theorem isNameText_splitHead (h : IsNameText name) : IsNameText (splitHead name).2 := by
  intro c hc
  unfold splitHead at hc
  rw [List.span_eq_takeWhile_dropWhile] at hc
  dsimp only at hc
  rw [String.toList_ofList] at hc
  exact h c ((List.dropWhile_sublist _).subset (List.mem_of_mem_drop hc))

theorem spelled_foreignName (hs : s.Tame) (hformed : s.contents.Formed) {ok : Segment → Prop}
    (hname : IsNameText name)
    (hmodule : ∀ module, s.contents.ComesFrom (splitHead name).1 module →
      Segment.IsModuleText module)
    (hok : ∀ module, ok (.qualifier module)) (hok' : ∀ cs, ok (.name cs)) :
    Spelled ok NameEnds (s.foreignName name) := by
  have hrest := isNameText_splitHead hname
  unfold Scope.foreignName
  dsimp only
  split
  · next module hnamespace =>
    split at hnamespace
    · cases hnamespace
    exact spelled_qualify hs (hmodule _ (.inl hnamespace)) hrest hok hok'
  · split
    · next module exported himported =>
      have hexported : IsNameText exported := by
        have := isNameText_of_isNameOver (hformed.isReadName_of_imported? himported)
        rwa [String.ofList_toList] at this
      refine spelled_qualify hs (hmodule _ (.inr ⟨exported, himported⟩)) ?_ hok hok'
      split
      · exact hexported
      · have hdot : ∀ c ∈ ".".toList, Token.isNameChar c = true := by decide
        rw [IsNameText, String.toList_append, String.toList_append]
        exact List.forall_mem_append.2 ⟨List.forall_mem_append.2 ⟨hexported, hdot⟩, hrest⟩
    · exact .name hname (hok' _)

/-- Every word that is written in a type is one. -/
theorem isAsciiName_of_mem_words {t : TypeNode} (h : t.Formed) :
    ∀ w ∈ t.words, isAsciiName w = true := by
  have hread := (TypeNode.formed_iff.1 h).1
  cases t with
  | tuple | function | object => exact hread
  | _ => exact List.forall_mem_nil _

theorem TypeNode.Tame.part {t part : TypeNode} (h : t.Tame s) (hpart : part ∈ t.parts) :
    part.Tame s :=
  fun _ hu => h _ (TypeNode.subterms_subset hpart hu)

theorem tame_object {members : List Member} (h : ∀ m ∈ members, ∀ t ∈ m.types, t.Tame s) :
    (TypeNode.object members).Tame s := by
  intro u hu
  rw [TypeNode.subterms_eq] at hu
  obtain rfl | hu := List.mem_cons.1 hu
  · trivial
  · obtain ⟨part, hpart, hu⟩ := List.mem_flatMap.1 hu
    obtain ⟨m, hm, ht⟩ := List.mem_flatMap.1 hpart
    exact h m hm part ht u hu

/-- What is no name of a type by itself comes from no module. -/
theorem tame_intrinsic (h : ResolvedType.intrinsics.lookup name ≠ none) :
    (TypeNode.reference name []).Tame s := by
  rw [TypeNode.Tame, TypeNode.subterms_eq]
  exact List.forall_mem_singleton.2 fun hnone => absurd hnone h

theorem typeLiteral_ne_empty (text : String) : Text.typeLiteral text ≠ "" := by
  intro hempty
  have htext := Text.toList_typeLiteral text
  rw [hempty] at htext
  cases htext

theorem ownName_ne_empty (s : Scope) (name : String) : s.ownName name ≠ "" := by
  intro hempty
  have htext := congrArg String.toList hempty
  rw [Scope.ownName, Scope.qualify] at htext
  simp at htext

/-- A template that was read is one token. -/
theorem whole_template {text : String} (h : (TypeNode.literal .template text).Formed) :
    Token.Whole (.template text) := by
  obtain ⟨body, htext, hbody⟩ := (TypeNode.formed_iff.1 h).1
  have heq : text = String.ofList ('`' :: body) := by
    rw [← htext, String.ofList_toList]
  rw [Token.Whole, Token.text, htext, Token.read?, if_neg (by decide), if_neg (by decide), if_pos rfl,
    hbody, heq]
  rfl

theorem spelled_literal {kind : LiteralKind} {text : String}
    (h : (TypeNode.literal kind text).Formed) : (Literal.type (kind, text)).AreSpelled := by
  have hread := (TypeNode.formed_iff.1 h).1
  cases kind with
  | string =>
    exact Spelled.areSpelled_of_solid (.string (Token.whole_typeLiteral text) nofun)
      (typeLiteral_ne_empty text)
  | number =>
    refine Spelled.areSpelled_of_solid
      ((Spelled.name (isNameText_of_isAtom hread.1) nofun).mono fun _ => CanEnd.nameEnds) ?_
    rintro rfl
    obtain ⟨c, hc, -⟩ := hread.2
    cases hc
  | template => exact Spelled.areSpelled (.template (whole_template h) trivial) (.inl rfl)

theorem isNameText_intrinsic {t : ResolvedType} (h : t ∈ intrinsicTypes) : IsNameText t.text := by
  have hrun : ∀ t ∈ intrinsicTypes, Token.IsRun t.text.toList := by decide +kernel
  exact hrun t h

theorem areSpelled_intrinsic : ∀ t ∈ intrinsicTypes, t.AreSpelled := by
  have hplain : ∀ t ∈ intrinsicTypes, t = .plain t.text t.kind ∧ t.text ≠ "" := by decide
  intro t ht
  obtain ⟨heq, hne⟩ := hplain t ht
  have hname := isNameText_intrinsic ht
  rw [heq] at hname ⊢
  exact Spelled.areSpelled_of_solid ((Spelled.name hname nofun).mono fun _ => CanEnd.nameEnds) hne

/-- A type after a word. -/
theorem spelled_phrase {word x : String} (hword : word ∈ Segment.operators)
    (h : Spelled (fun _ => True) CanEnd x) : Spelled (fun _ => True) CanEnd (word ++ " " ++ x) :=
  (@Spelled.operator _ (fun _ => True) word hword fun _ => trivial).append h fun _ _ => trivial

theorem spelled_readonly {x : String} (h : Spelled (fun _ => True) CanEnd x) :
    Spelled (fun _ => True) CanEnd ("readonly " ++ x) := @spelled_phrase "readonly" x (by decide) h

theorem spelled_keyof {t : ResolvedType} (h : t.AreSpelled) :
    (ResolvedType.plain ("keyof " ++ t.operandText) .raw).AreSpelled :=
  Spelled.areSpelled (@spelled_phrase "keyof" _ (by decide) (Spelled.operandText h.1)) (.inr rfl)

theorem spelled_word (h : IsNameText name) : Spelled (fun _ => True) CanEnd name :=
  (Spelled.name h trivial).mono fun _ => CanEnd.nameEnds

theorem spelled_emptyBrackets {x : String} (h : Spelled (fun _ => True) CanEnd x) :
    Spelled (fun _ => True) CanEnd (x ++ "[]") :=
  h.append (@Spelled.brackets _ CanEnd "" .empty fun _ => trivial) fun _ _ => .cons (by decide)

/-- A read-only array is the array, after a word. -/
theorem ResolvedType.readonlyArray_eq (t : ResolvedType) :
    t.readonlyArray = .plain ("readonly " ++ (t.operandText ++ "[]")) .object := by
  rw [readonlyArray, String.append_assoc]

theorem spelled_indexed {x y : String} (hx : Spelled (fun _ => True) CanEnd x)
    (hy : Spelled (fun _ => True) CanEnd y) : Spelled (fun _ => True) CanEnd (x ++ "[" ++ y ++ "]") := by
  have h := hx.append (@Spelled.brackets _ CanEnd _ hy fun _ => trivial) fun after _ => by
    have hbracket := @CanEnd.cons '[' (y.toList ++ ']' :: after) (by decide)
    simpa using hbracket
  simpa only [String.append_assoc] using h

theorem spelled_functionText {texts : List String} {r : String} (h : ∀ x ∈ texts, IsParameterText x)
    (hr : Spelled (fun _ => True) CanEnd r) :
    Spelled (fun _ => True) CanEnd (signatureText texts ++ " => " ++ r) := by
  have harrow : Spelled (fun _ => True) (fun _ => True) " => " :=
    .glue [.space ' ', .mark .arrow, .space ' '] rfl (by decide) fun _ _ => trivial
  exact ((@spelled_signatureText _ (fun _ => True) h).append harrow fun _ _ => trivial).append hr
    fun _ _ => trivial

/-- **In a tame file every type is spelled by segments.** -/
def segmentInvariant (hs : s.Tame) (hformed : s.contents.Formed)
    (hnames : ∀ d ∈ s.contents.aliases, IsReadName d.name) : Invariant s where
  Node t := t.Formed ∧ t.Tame s
  Word w := isAsciiName w = true
  Name := IsNameText
  Shown := ResolvedType.AreSpelled
  ElementText := Spelled (fun _ => True) CanEnd
  ParameterText := IsParameterText
  MemberText := IsMemberText
  node_part hnode hpart := ⟨(TypeNode.formed_iff.1 hnode.1).2 _ hpart, hnode.2.part hpart⟩
  node_word hnode hw := isAsciiName_of_mem_words hnode.1 _ hw
  node_name hnode := isNameText_of_dotted (TypeNode.formed_iff.1 hnode.1).1
  node_member hnode hm := by
    refine ⟨TypeNode.formed_object_iff.2
      (List.forall_mem_singleton.2 (TypeNode.formed_object_iff.1 hnode.1 _ hm)), ?_⟩
    refine tame_object (List.forall_mem_singleton.2 fun t ht => hnode.2.part ?_)
    exact List.mem_flatMap.2 ⟨_, hm, ht⟩
  node_types t ht := ⟨hformed.types t ht, hs.types t ht⟩
  node_members d hd := ⟨TypeNode.formed_object_iff.2 (hformed.of_interface hd).2.2,
    tame_object fun m hm t ht => hs.types t (Contents.member_mem_types hd hm ht)⟩
  node_values := ⟨⟨formed_values.1, tame_intrinsic nofun⟩, ⟨formed_values.2, tame_intrinsic nofun⟩⟩
  name_alias d hd := by
    have := isNameText_of_isNameOver (hnames d hd)
    rwa [String.ofList_toList] at this
  intrinsic := areSpelled_intrinsic
  literal hnode := spelled_literal hnode.1
  key name := Spelled.areSpelled_of_solid (.string (Token.whole_typeLiteral name) nofun)
    (typeLiteral_ne_empty name)
  raw hnode := Spelled.areSpelled (hnode.2 _ (TypeNode.self_mem_subterms _)) (.inr rfl)
  query hnode := Spelled.areSpelled (@spelled_phrase "typeof" _ (by decide)
    (spelled_word (isNameText_of_dotted (TypeNode.formed_iff.1 hnode.1).1))) (.inr rfl)
  unique := Spelled.areSpelled (@spelled_phrase "unique" "symbol" (by decide)
    (spelled_word (show Token.IsRun _ by decide))) (.inl rfl)
  own hname hkind := Spelled.areSpelled_of_solid
    ((spelled_ownName hs hname (fun _ => nofun) fun _ => nofun).mono fun _ => CanEnd.nameEnds)
    (ownName_ne_empty s _)
  named hname harguments hkind := areSpelled_named harguments
    (spelled_ownName hs hname (fun _ => trivial) fun _ => trivial) (by
      have hall : ∀ kind ∈ namedKinds, kind.isPrimitive = false := by decide
      exact hall _ hkind)
  foreign hnode hforeign harguments := areSpelled_named harguments
    (spelled_foreignName hs hformed (isNameText_of_dotted (TypeNode.formed_iff.1 hnode.1).1)
      (hnode.2 _ (TypeNode.self_mem_subterms _) hforeign) (fun _ => trivial) fun _ => trivial) rfl
  imported hnode harguments := areSpelled_named harguments
    (spelled_qualify hs (hnode.2 _ (TypeNode.self_mem_subterms _))
      (isNameText_of_dotted (TypeNode.formed_iff.1 hnode.1).1) (fun _ => trivial) fun _ => trivial) rfl
  single := Spelled.single
  array {t} h := ⟨⟨spelled_emptyBrackets (Spelled.operandText h.1), nofun⟩,
    fun e he => by cases he; exact h.1⟩
  readonlyArray {t} h := t.readonlyArray_eq ▸ Spelled.areSpelled
    (spelled_readonly (spelled_emptyBrackets (Spelled.operandText h.1))) (.inl rfl)
  readonly {t} h := by
    unfold readonlyType
    split
    · exact Spelled.areSpelled (spelled_readonly h.1.spelled) (.inl rfl)
    · exact h
  keyof := spelled_keyof
  indexed _ ho hi := Spelled.areSpelled (spelled_indexed ho.1.spelled hi.1.spelled) (.inr rfl)
  intersection _ _ h := Spelled.areSpelled (.ampersands (fun _ => trivial)
    (List.forall_mem_map.2 fun t ht => Spelled.operandText (h t ht).1)) (.inl rfl)
  tuple h := Spelled.areSpelled (.brackets (.commas (fun _ => trivial) h) fun _ => trivial) (.inl rfl)
  function h hr := Spelled.areSpelled (spelled_functionText h hr.1.spelled) (.inl rfl)
  object h := Spelled.areSpelled (spelled_bodyText h) (.inl rfl)
  element h := h.1.spelled
  namedElement optional hname h :=
    spelled_annotated optional (.name (isNameText_of_isAsciiName hname) trivial) h.1.spelled
  restElement h := (@spelled_ellipsis fun _ => True).append h.1.spelled fun _ _ => trivial
  parameter optional rest hname h := isParameterText_parameterText optional rest hname h.1.spelled
  index readonly hkey hk hv :=
    isMemberText_index readonly (isNameText_of_isAsciiName hkey) hk.1.spelled hv.1.spelled
  method name optional h hr := isMemberText_method optional h hr.1.spelled
  property name optional readonly h := isMemberText_property optional readonly h.1.spelled

end

end FluentBuilders
