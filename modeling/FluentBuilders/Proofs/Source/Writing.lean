import FluentBuilders.Proofs.Syntax.RoundTrip
import FluentBuilders.Proofs.Source.Nesting
import FluentBuilders.Source.File

/-!
# Proofs/Source/Writing — statements as they are written

`Writes s xs` says that the lexemes `xs` write the statement `s`: a declaration with its keywords,
type parameters and body, or an import with its bindings and module.  Types are spelled out as in
`TypeNode.tokens`; an alias and an import may end in a semicolon, an enum may be exported, and the
members of an enum stand bare or as string literals.
-/

namespace FluentBuilders

open Grammar

/-! ## Names -/

/-- The words that a source is not written with as names. -/
def reservedWords : List String :=
  ["keyof", "typeof", "readonly", "extends", "infer", "unique", "import", "type"]

/-- **A name that a source is written with**: an ASCII identifier that is no reserved word and does
not end in `$` and one. -/
structure IsSafeName (name : String) : Prop where
  ascii : isAsciiName name
  ne : ∀ w ∈ reservedWords, name ≠ w
  no_suffix : ∀ w ∈ reservedWords, ¬('$' :: w.toList) <:+ name.toList

instance (name : String) : Decidable (IsSafeName name) :=
  decidable_of_iff (isAsciiName name ∧ (∀ w ∈ reservedWords, name ≠ w) ∧
      ∀ w ∈ reservedWords, ¬('$' :: w.toList) <:+ name.toList)
    ⟨fun ⟨ascii, ne, no_suffix⟩ => ⟨ascii, ne, no_suffix⟩,
      fun h => ⟨h.ascii, h.ne, h.no_suffix⟩⟩

theorem IsSafeName.isNameAtType {name : String} (h : IsSafeName name) : isNameAtType name := by
  simp only [Grammar.isNameAtType, Bool.not_eq_true', List.contains_eq_mem, decide_eq_false_iff_not]
  intro hmem
  refine h.ne name ?_ rfl
  revert hmem
  simp only [operatorWords, reservedWords, List.mem_cons, List.not_mem_nil, or_false]
  tauto

/-- **A type as it is spelled in a source.** -/
abbrev TypeNode.IsTyped (t : TypeNode) : Prop := t.Spellable IsTypeName

/-- The name that a type is written with outside brackets, if there is one. -/
def TypeNode.outerName? : TypeNode → Option String
  | .reference name _ | .imported _ name _ | .query name => some name
  | .operator .unique (.reference name []) => some name
  | _ => none

/-- **A type that a source is written with**: its name is one that sources are written with. -/
structure TypeNode.IsSafe (t : TypeNode) : Prop where
  typed : t.IsTyped
  outer : ∀ name ∈ t.outerName?, DottedBy IsSafeName name

/-- **A reference with a name that sources are written with.** -/
theorem TypeNode.IsSafe.reference {name : String} (hname : DottedBy IsSafeName name)
    {arguments : List TypeNode} (h : ∀ t ∈ arguments, t.IsTyped) :
    (TypeNode.reference name arguments).IsSafe := by
  refine ⟨.reference name arguments (fun part hpart => ?_) h, ?_⟩
  · exact ⟨(hname part hpart).ascii, (hname part hpart).isNameAtType⟩
  · rintro _ ⟨⟩
    exact hname

/-! ## Lexemes -/

/-- A word that is a name, or has a meaning at its place alone. -/
abbrev Lexeme.word (name : String) : Lexeme := .token (.word name)

/-- A punctuation mark. -/
abbrev Lexeme.mark (m : Mark) : Lexeme := .token (.mark m)

/-- Items with commas between them. -/
def commaList : List (List Lexeme) → List Lexeme
  | [] => []
  | [item] => item
  | item :: items => item ++ .mark .comma :: commaList items

/-- A lexeme that may be left out. -/
def lexemeIf (present : Bool) (x : Lexeme) : List Lexeme := if present then [x] else []

namespace TypeParameter

/-- The lexemes of a bound. -/
def boundLexemes : Option TypeNode → List Lexeme
  | none => []
  | some t => .keyword "extends" :: lexemesOf t.tokens

/-- The lexemes of a default. -/
def defaultLexemes : Option TypeNode → List Lexeme
  | none => []
  | some t => .equals :: lexemesOf t.tokens

/-- The lexemes of a type parameter. -/
def lexemes (p : TypeParameter) : List Lexeme :=
  .word p.name :: (boundLexemes p.bound ++ defaultLexemes p.default)

/-- A type parameter that a source is written with. -/
structure IsSafe (p : TypeParameter) : Prop where
  name : IsSafeName p.name
  bound : ∀ t ∈ p.bound, t.IsSafe
  default : ∀ t ∈ p.default, t.IsSafe

end TypeParameter

/-- **Type parameters** in angle brackets, if there are any. -/
def parametersLexemes : List TypeParameter → List Lexeme
  | [] => []
  | p :: ps =>
    .mark .openAngle :: (commaList ((p :: ps).map TypeParameter.lexemes) ++ [.mark .closeAngle])

/-- **What an interface extends**, if anything. -/
def heritageLexemes : List TypeNode → List Lexeme
  | [] => []
  | t :: ts => .keyword "extends" :: commaList ((t :: ts).map fun t => lexemesOf t.tokens)

/-- **An enum member** stands bare, or as a string literal that denotes it. -/
inductive WritesMember : String → List Lexeme → Prop
  | bare (name : String) (h : isAsciiName name) : WritesMember name [.word name]
  | quoted (literal : String) (h : (Token.string literal).Whole) :
      WritesMember (Text.unquoteString literal) [.token (.string literal)]

/-- **A literal without quotes of its own kind** inside, not even escaped ones. -/
def Lexeme.IsPlainLiteral : Lexeme → Prop
  | .token (.string literal) => plainLiteral? literal.toList = some (literal.toList, [])
  | _ => True

instance : (x : Lexeme) → Decidable x.IsPlainLiteral
  | .token (.string literal) =>
    inferInstanceAs (Decidable (plainLiteral? literal.toList = some (literal.toList, [])))
  | .token (.word _) | .token (.number _) | .token (.negative _) | .token (.template _)
  | .token (.mark _) | .keyword _ | .equals | .star => .isTrue trivial

/-- **A named binding** of an import, local and exported name; one word when they are the same. -/
inductive WritesBinding : String × String → List Lexeme → Prop
  | same (name : String) : WritesBinding (name, name) [.word name]
  | renamed (localName exported : String) :
      WritesBinding (localName, exported) [.word exported, .word "as", .word localName]

/-- The token of a module between two quotes. -/
def moduleToken (quote : Char) (module : String) : Token :=
  .string (String.ofList (quote :: module.toList ++ [quote]))

/-- A default binding in front of other bindings. -/
def defaultLexemes : Option String → List Lexeme
  | none => []
  | some name => [.word name, .mark .comma]

/-- **The clause of an import**: its default name, its namespace and its named bindings. -/
inductive WritesClause : Option String → Option String → List (String × String) → List Lexeme → Prop
  | default (name : String) : WritesClause (some name) none [] [.word name]
  | namespace (default : Option String) (name : String) :
      WritesClause default (some name) [] (defaultLexemes default ++ [.star, .word "as", .word name])
  | named (default : Option String) (names : List (String × String)) (items : List (List Lexeme))
      (h : List.Forall₂ WritesBinding names items) :
      WritesClause default none names
        (defaultLexemes default ++ .mark .openBrace :: (commaList items ++ [.mark .closeBrace]))

/-- **A statement and its lexemes.** -/
inductive Writes : Statement → List Lexeme → Prop
  | alias (d : AliasDeclaration) (semicolon : Bool) :
      Writes (.alias d) (lexemeIf d.exported (.keyword "export") ++ .keyword "type" ::
        .word d.name :: (parametersLexemes d.parameters ++ .equals ::
          (lexemesOf d.body.tokens ++ lexemeIf semicolon (.mark .semicolon))))
  | interface (d : InterfaceDeclaration) :
      Writes (.interface d) (lexemeIf d.exported (.keyword "export") ++ .keyword "interface" ::
        .word d.name :: (parametersLexemes d.parameters ++ (heritageLexemes d.heritage ++
          lexemesOf (TypeNode.object d.members).tokens)))
  | enum (d : EnumDeclaration) (exported : Bool) (items : List (List Lexeme))
      (h : List.Forall₂ WritesMember d.members items) :
      Writes (.enum d) (lexemeIf exported (.keyword "export") ++
        (lexemeIf d.constant (.keyword "const") ++ .keyword "enum" :: .word d.name ::
          .mark .openBrace :: (commaList items ++ [.mark .closeBrace])))
  | imported (d : ImportDeclaration) (clause : List Lexeme) (quote : Char) (semicolon : Bool)
      (h : WritesClause d.defaultName d.namespaceName d.names clause)
      (hquote : quote = '"' ∨ quote = '\'') :
      Writes (.imported d) (.keyword "import" :: (clause ++ .word "from" ::
        .token (moduleToken quote d.module) :: lexemeIf semicolon (.mark .semicolon)))

/-! ## Statements that can be written -/

/-- **A module as a source names it**: the text between two quotes, with no quotes in it. -/
structure IsModuleText (module : String) : Prop where
  ne_empty : module ≠ ""
  no_quote : ∀ c ∈ module.toList, c ≠ '\'' ∧ c ≠ '"'
  whole : ∀ quote, quote = '"' ∨ quote = '\'' → (moduleToken quote module).Whole

/-- **A statement that a source is written with.** -/
inductive Statement.IsSafe : Statement → Prop
  | alias (d : AliasDeclaration) (hname : IsSafeName d.name) (hparameters : ∀ p ∈ d.parameters, p.IsSafe)
      (hbody : d.body.IsSafe) : Statement.IsSafe (.alias d)
  | interface (d : InterfaceDeclaration) (hname : IsSafeName d.name)
      (hparameters : ∀ p ∈ d.parameters, p.IsSafe)
      (hheritage : ∀ t ∈ d.heritage, t.IsSafe ∧ ∃ name arguments, t = .reference name arguments)
      (hmembers : (TypeNode.object d.members).IsTyped) : Statement.IsSafe (.interface d)
  | enum (d : EnumDeclaration) (hname : IsSafeName d.name) : Statement.IsSafe (.enum d)
  | imported (d : ImportDeclaration) (hmodule : IsModuleText d.module)
      (hdefault : ∀ n ∈ d.defaultName, IsSafeName n) (hnamespace : ∀ n ∈ d.namespaceName, IsSafeName n)
      (hnames : ∀ b ∈ d.names, IsSafeName b.1 ∧ IsSafeName b.2)
      (hdistinct : (d.names.map Prod.fst).Nodup) (htype : d.typeOnly = false) :
      Statement.IsSafe (.imported d)

end FluentBuilders
