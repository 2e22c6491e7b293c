import FluentBuilders.Syntax.Grammar

/-!
# Proofs/Syntax/Derivation — the grammar of type expressions as a relation

`Derives c ts v next` holds when the tokens `ts` are a phrase of the category `c` with the tree `v`
in front of the token `next`.  The lookahead is part of the relation because the readers are greedy:
a phrase ends where nothing that follows can carry it on.  The readers and the relation say the same
(`Proofs/Syntax/Reading`).
-/

namespace FluentBuilders.Grammar

/-- **The categories of the grammar**, one for each reader. -/
inductive Category where
  | type | function | union | unionTail | intersection | intersectionTail | operand
  /-- The brackets after the type `base`. -/
  | brackets (base : TypeNode)
  | primary | arguments | argumentList | parameters | parameter | elements | element
  | members | member | ascription

/-- What a phrase of a category is read as. -/
@[reducible] def Category.Tree : Category → Type
  | .unionTail | .intersectionTail | .arguments | .argumentList => List TypeNode
  | .parameters => List Parameter
  | .parameter => Parameter
  | .elements => List TupleElement
  | .element => TupleElement
  | .members => List Member
  | .member => Member
  | .ascription => Option TypeNode
  | _ => TypeNode

/-- **The reader of a category.** -/
def Category.read? : (c : Category) → Nat → List Token → Option (c.Tree × List Token)
  | .type, fuel, ts => type? fuel ts
  | .function, fuel, ts => functionType? fuel ts
  | .union, fuel, ts => union? fuel ts
  | .unionTail, fuel, ts => unionTail? fuel ts
  | .intersection, fuel, ts => intersection? fuel ts
  | .intersectionTail, fuel, ts => intersectionTail? fuel ts
  | .operand, fuel, ts => operand? fuel ts
  | .brackets base, fuel, ts => brackets? fuel base ts
  | .primary, fuel, ts => primary? fuel ts
  | .arguments, fuel, ts => arguments? fuel ts
  | .argumentList, fuel, ts => argumentList? fuel ts
  | .parameters, fuel, ts => parameters? fuel ts
  | .parameter, fuel, ts => parameter? fuel ts
  | .elements, fuel, ts => elements? fuel ts
  | .element, fuel, ts => element? fuel ts
  | .members, fuel, ts => members? fuel ts
  | .member, fuel, ts => member? fuel ts
  | .ascription, fuel, ts => annotation? fuel ts

/-! ## Pieces of phrases -/

/-- A token that may be left out. -/
def tokenIf (present : Bool) (t : Token) : List Token := if present then [t] else []

/-- The tokens of the parts of a name after its first. -/
def dottedTokens (parts : List String) : List Token :=
  parts.flatMap fun part => [.mark .dot, .word part]

/-- A name with parts after dots. -/
def dotted (name : String) (parts : List String) : String :=
  parts.foldl (fun name part => name ++ "." ++ part) name

/-- What can stand between a member and the next: nothing, a semicolon or a comma. -/
def separators : List (List Token) := [[], [.mark .semicolon], [.mark .comma]]

/-- The first of the tokens `ts`, or the token after them. -/
def headOr (ts : List Token) (next : Option Token) : Option Token := ts.head?.or next

/-! ## The relation -/

/-- **The phrases of the grammar**: tokens, their tree, and the token in front of which they end. -/
inductive Derives : (c : Category) → List Token → c.Tree → Option Token → Prop
  | ofFunction {ts f next} (starts : startsParameters ts) (h : Derives .function ts f next) :
      Derives .type (.mark .openParen :: ts) f next
  | ofUnion {ts t next} (h : Derives .union ts t next) : Derives .type ts t next
  | arrow {xs ps ys r next} (hp : Derives .parameters xs ps (some (.mark .arrow)))
      (hr : Derives .type ys r next) :
      Derives .function (xs ++ .mark .arrow :: ys) (.function ps r) next
  | noParameters {next} : Derives .parameters [.mark .closeParen] [] next
  | lastParameter {xs p next} (h : Derives .parameter xs p (some (.mark .closeParen))) :
      Derives .parameters (xs ++ [.mark .closeParen]) [p] next
  | moreParameters {xs p ys ps next} (h : Derives .parameter xs p (some (.mark .comma)))
      (hs : Derives .parameters ys ps next) :
      Derives .parameters (xs ++ .mark .comma :: ys) (p :: ps) next
  | parameter {ts t next} (name : String) (optional spread : Bool) (h : Derives .type ts t next) :
      Derives .parameter (tokenIf spread (.mark .ellipsis) ++
        .word name :: (tokenIf optional (.mark .question) ++ .mark .colon :: ts))
        (.mk name optional spread t) next
  | unionOf {xs t ys ts next} (front : Bool) (h : Derives .intersection xs t (headOr ys next))
      (hs : Derives .unionTail ys ts next) :
      Derives .union (tokenIf front (.mark .bar) ++ (xs ++ ys)) (groupOf .union (t :: ts)) next
  | unionEnd {next} (h : next ≠ some (.mark .bar)) : Derives .unionTail [] [] next
  | unionMore {xs t ys ts next} (h : Derives .intersection xs t (headOr ys next))
      (hs : Derives .unionTail ys ts next) :
      Derives .unionTail (.mark .bar :: (xs ++ ys)) (t :: ts) next
  | intersectionOf {xs t ys ts next} (front : Bool) (h : Derives .operand xs t (headOr ys next))
      (hs : Derives .intersectionTail ys ts next) :
      Derives .intersection (tokenIf front (.mark .ampersand) ++ (xs ++ ys))
        (groupOf .intersection (t :: ts)) next
  | intersectionEnd {next} (h : next ≠ some (.mark .ampersand)) :
      Derives .intersectionTail [] [] next
  | intersectionMore {xs t ys ts next} (h : Derives .operand xs t (headOr ys next))
      (hs : Derives .intersectionTail ys ts next) :
      Derives .intersectionTail (.mark .ampersand :: (xs ++ ys)) (t :: ts) next
  | keyofOf {ts t next} (h : Derives .operand ts t next) :
      Derives .operand (.word "keyof" :: ts) (.operator .keyof t) next
  | readonlyOf {ts t next} (h : Derives .operand ts t next) :
      Derives .operand (.word "readonly" :: ts) (.operator .readonly t) next
  | uniqueOf {next} (name : String) :
      Derives .operand [.word "unique", .word name] (.operator .unique (.reference name [])) next
  | bracketed {xs p ys t next} (h : Derives .primary xs p (headOr ys next))
      (hs : Derives (.brackets p) ys t next) : Derives .operand (xs ++ ys) t next
  | bracketsEnd {p next} (h : next ≠ some (.mark .openBracket)) : Derives (.brackets p) [] p next
  | arrayOf {p ts t next} (h : Derives (.brackets (.array p)) ts t next) :
      Derives (.brackets p) (.mark .openBracket :: .mark .closeBracket :: ts) t next
  | indexedBy {p xs i ys t next} (h : Derives .type xs i (some (.mark .closeBracket)))
      (hs : Derives (.brackets (.indexed p i)) ys t next) :
      Derives (.brackets p) (.mark .openBracket :: (xs ++ .mark .closeBracket :: ys)) t next
  | parens {ts t next} (h : Derives .type ts t (some (.mark .closeParen))) :
      Derives .primary (.mark .openParen :: (ts ++ [.mark .closeParen])) t next
  | object {ts ms next} (h : Derives .members ts ms next) :
      Derives .primary (.mark .openBrace :: ts) (.object ms) next
  | tuple {ts es next} (h : Derives .elements ts es next) :
      Derives .primary (.mark .openBracket :: ts) (.tuple es) next
  | string {next} (literal : String) :
      Derives .primary [.string literal] (.literal .string (Text.unquoteString literal)) next
  | number {next} (text : String) : Derives .primary [.number text] (.literal .number text) next
  | negative {next} (text : String) : Derives .primary [.negative text] (.literal .number text) next
  | template {next} (text : String) :
      Derives .primary [.template text] (.literal .template text) next
  | query {next} (name : String) (parts : List String) (h : next ≠ some (.mark .dot)) :
      Derives .primary (.word "typeof" :: .word name :: dottedTokens parts)
        (.query (dotted name parts)) next
  | imported {ts as next} (literal name : String) (parts : List String)
      (h : headOr ts next ≠ some (.mark .dot)) (hs : Derives .arguments ts as next) :
      Derives .primary (.word "import" :: .mark .openParen :: .string literal ::
        .mark .closeParen :: .mark .dot :: .word name :: (dottedTokens parts ++ ts))
        (.imported (Text.unquoteString literal) (dotted name parts) as) next
  | reference {ts as next} (name : String) (parts : List String) (hn : isNameAtType name)
      (h : headOr ts next ≠ some (.mark .dot)) (hs : Derives .arguments ts as next) :
      Derives .primary (.word name :: (dottedTokens parts ++ ts))
        (.reference (dotted name parts) as) next
  | noArguments {next} (h : next ≠ some (.mark .openAngle)) : Derives .arguments [] [] next
  | someArguments {ts as next} (h : Derives .argumentList ts as next) :
      Derives .arguments (.mark .openAngle :: ts) as next
  | lastArgument {ts a next} (h : Derives .type ts a (some (.mark .closeAngle))) :
      Derives .argumentList (ts ++ [.mark .closeAngle]) [a] next
  | moreArguments {xs a ys as next} (h : Derives .type xs a (some (.mark .comma)))
      (hs : Derives .argumentList ys as next) :
      Derives .argumentList (xs ++ .mark .comma :: ys) (a :: as) next
  | noElements {next} : Derives .elements [.mark .closeBracket] [] next
  | lastElement {xs e next} (h : Derives .element xs e (some (.mark .closeBracket))) :
      Derives .elements (xs ++ [.mark .closeBracket]) [e] next
  | moreElements {xs e ys es next} (h : Derives .element xs e (some (.mark .comma)))
      (hs : Derives .elements ys es next) :
      Derives .elements (xs ++ .mark .comma :: ys) (e :: es) next
  | restElement {ts t next} (h : Derives .type ts t next) :
      Derives .element (.mark .ellipsis :: ts) (.rest t) next
  | namedElement {ts t next} (name : String) (optional : Bool) (hn : isNameAtType name)
      (h : Derives .type ts t next) :
      Derives .element (.word name :: (tokenIf optional (.mark .question) ++ .mark .colon :: ts))
        (.named name optional t) next
  | plainElement {ts t next} (hn : startsElementName (ts ++ next.toList) = false)
      (h : Derives .type ts t next) : Derives .element ts (.plain t) next
  | noMembers {next} : Derives .members [.mark .closeBrace] [] next
  | moreMembers {xs m ys ms next} (sep : List Token) (hsep : sep ∈ separators)
      (h : Derives .member xs m (headOr (sep ++ ys) next)) (hs : Derives .members ys ms next) :
      Derives .members (xs ++ (sep ++ ys)) (m :: ms) next
  | index {xs k ys v next} (key : String) (readonly : Bool)
      (hk : Derives .type xs k (some (.mark .closeBracket))) (hv : Derives .type ys v next) :
      Derives .member (tokenIf readonly (.word "readonly") ++ .mark .openBracket :: .word key ::
        .mark .colon :: (xs ++ .mark .closeBracket :: .mark .colon :: ys))
        (.index key readonly k v) next
  | method {key xs ps ys r next} (name : String) (optional : Bool)
      (hkey : propertyName? key = some (name, [])) (hplain : key ≠ [.word "readonly"])
      (hp : Derives .parameters xs ps (headOr ys next)) (hr : Derives .ascription ys r next) :
      Derives .member (key ++ (tokenIf optional (.mark .question) ++ .mark .openParen :: (xs ++ ys)))
        (.method name optional ps r) next
  | property {key ts t next} (name : String) (optional readonly : Bool)
      (hkey : propertyName? key = some (name, []))
      (hplain : readonly = false → key ≠ [.word "readonly"])
      (hopt : optional = false → headOr ts next ≠ some (.mark .question))
      (hparen : headOr ts next ≠ some (.mark .openParen)) (h : Derives .ascription ts t next) :
      Derives .member (tokenIf readonly (.word "readonly") ++
        (key ++ (tokenIf optional (.mark .question) ++ ts)))
        (.property name optional readonly t) next
  | noAscription {next} (h : next ≠ some (.mark .colon)) : Derives .ascription [] none next
  | someAscription {ts t next} (h : Derives .type ts t next) :
      Derives .ascription (.mark .colon :: ts) (some t) next

end FluentBuilders.Grammar
