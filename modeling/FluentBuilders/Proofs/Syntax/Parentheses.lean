import FluentBuilders.Proofs.Syntax.Spelling

/-!
# Proofs/Syntax/Parentheses — a type in parentheses is the type

A phrase that ends where the tokens end is one in front of a closing parenthesis as well, since none
is carried on by it (`Derives.or_closeParen`).  So parentheses around the tokens of a type leave its
tree as it is.
-/

namespace FluentBuilders.Grammar

theorem headOr_or (ts : List Token) (next after : Option Token) :
    headOr ts (next.or after) = (headOr ts next).or after := by
  rw [headOr, headOr, Option.or_assoc]

theorem or_closeParen_ne {next : Option Token} {m : Mark} (h : next ≠ some (.mark m))
    (hm : m ≠ .closeParen) : next.or (some (.mark .closeParen)) ≠ some (.mark m) := by
  cases next with
  | none => simpa using Ne.symm hm
  | some t => exact h

theorem startsElementName_or {ts : List Token} {next : Option Token}
    (h : startsElementName (ts ++ next.toList) = false) :
    startsElementName (ts ++ (next.or (some (.mark .closeParen))).toList) = false := by
  cases next with
  | some t => exact h
  | none =>
    rw [Option.toList_none, List.append_nil] at h
    match ts with
    | [] => rfl
    | [t] => cases t <;> rfl
    | t :: u :: ts =>
      cases t <;> try rfl
      cases u <;> try rfl
      next m => cases m <;> first | rfl | exact h

/-- **A phrase at the end of the tokens** is one in front of a closing parenthesis as well. -/
theorem Derives.or_closeParen {c : Category} {ts : List Token} {v : c.Tree} {next : Option Token}
    (h : Derives c ts v next) : Derives c ts v (next.or (some (.mark .closeParen))) := by
  induction h with
  | ofFunction starts _ ih => exact .ofFunction starts ih
  | ofUnion _ ih => exact .ofUnion ih
  | arrow _ _ ihp ihr => exact .arrow ihp ihr
  | noParameters => exact .noParameters
  | lastParameter _ ih => exact .lastParameter ih
  | moreParameters _ _ ih ihs => exact .moreParameters ih ihs
  | parameter name optional spread _ ih => exact .parameter name optional spread ih
  | unionOf front _ _ ih ihs => exact .unionOf front (by rwa [headOr_or]) ihs
  | unionEnd h => exact .unionEnd (or_closeParen_ne h (by decide))
  | unionMore _ _ ih ihs => exact .unionMore (by rwa [headOr_or]) ihs
  | intersectionOf front _ _ ih ihs => exact .intersectionOf front (by rwa [headOr_or]) ihs
  | intersectionEnd h => exact .intersectionEnd (or_closeParen_ne h (by decide))
  | intersectionMore _ _ ih ihs => exact .intersectionMore (by rwa [headOr_or]) ihs
  | keyofOf _ ih => exact .keyofOf ih
  | readonlyOf _ ih => exact .readonlyOf ih
  | uniqueOf name => exact .uniqueOf name
  | bracketed _ _ ih ihs => exact .bracketed (by rwa [headOr_or]) ihs
  | bracketsEnd h => exact .bracketsEnd (or_closeParen_ne h (by decide))
  | arrayOf _ ih => exact .arrayOf ih
  | indexedBy _ _ ih ihs => exact .indexedBy ih ihs
  | parens _ ih => exact .parens ih
  | object _ ih => exact .object ih
  | tuple _ ih => exact .tuple ih
  | string literal => exact .string literal
  | number text => exact .number text
  | negative text => exact .negative text
  | template text => exact .template text
  | query name parts h => exact .query name parts (or_closeParen_ne h (by decide))
  | imported literal name parts h _ ih =>
    exact .imported literal name parts (by rw [headOr_or]; exact or_closeParen_ne h (by decide)) ih
  | reference name parts hn h _ ih =>
    exact .reference name parts hn (by rw [headOr_or]; exact or_closeParen_ne h (by decide)) ih
  | noArguments h => exact .noArguments (or_closeParen_ne h (by decide))
  | someArguments _ ih => exact .someArguments ih
  | lastArgument _ ih => exact .lastArgument ih
  | moreArguments _ _ ih ihs => exact .moreArguments ih ihs
  | noElements => exact .noElements
  | lastElement _ ih => exact .lastElement ih
  | moreElements _ _ ih ihs => exact .moreElements ih ihs
  | restElement _ ih => exact .restElement ih
  | namedElement name optional hn _ ih => exact .namedElement name optional hn ih
  | plainElement hn _ ih => exact .plainElement (startsElementName_or hn) ih
  | noMembers => exact .noMembers
  | moreMembers sep hsep _ _ ih ihs => exact .moreMembers sep hsep (by rwa [headOr_or]) ihs
  | index key readonly _ _ ihk ihv => exact .index key readonly ihk ihv
  | method name optional hkey hplain _ _ ihp ihr =>
    exact .method name optional hkey hplain (by rwa [headOr_or]) ihr
  | property name optional readonly hkey hplain hopt hparen _ ih =>
    exact .property name optional readonly hkey hplain
      (fun ho => by rw [headOr_or]; exact or_closeParen_ne (hopt ho) (by decide))
      (by rw [headOr_or]; exact or_closeParen_ne hparen (by decide)) ih
  | noAscription h => exact .noAscription (or_closeParen_ne h (by decide))
  | someAscription _ ih => exact .someAscription ih

/-- **Parentheses make no node.** -/
theorem typeOfTokens?_parenthesized {ts : List Token} {t : TypeNode}
    (h : typeOfTokens? ts = some t) : typeOfTokens? (parenthesized ts) = some t := by
  rw [typeOfTokens?_eq_some_iff] at h ⊢
  have hinner : Derives .type ts t (some (.mark .closeParen)) := h.or_closeParen
  exact (Derives.parens hinner).type_of_primary nofun

/-- **The tokens of a union** of types that are each in parentheses. -/
def unionTokens : List (List Token) → List Token
  | [] => []
  | ts :: phrases => parenthesized ts ++ phrases.flatMap fun ts => .mark .bar :: parenthesized ts

theorem Derives.intersection_parenthesized {ts rest : List Token} {t : TypeNode}
    (h : typeOfTokens? ts = some t) (hbracket : headOr rest none ≠ some (.mark .openBracket))
    (hampersand : headOr rest none ≠ some (.mark .ampersand)) :
    Derives .intersection (parenthesized ts) t (headOr rest none) := by
  rw [typeOfTokens?_eq_some_iff] at h
  have hinner : Derives .type ts t (some (.mark .closeParen)) := h.or_closeParen
  exact ((Derives.parens hinner).operand_of_primary hbracket).intersection_of_operand hampersand

theorem headOr_flatMap_ne (phrases : List (List Token)) {m : Mark} (hm : m ≠ .bar) :
    headOr (phrases.flatMap fun ts => .mark .bar :: parenthesized ts) none ≠ some (.mark m) := by
  cases phrases with
  | nil => exact nofun
  | cons ts phrases => simpa [headOr] using Ne.symm hm

theorem Derives.unionTail_flatMap {phrases : List (List Token)} {trees : List TypeNode}
    (h : List.Forall₂ (typeOfTokens? · = some ·) phrases trees) :
    Derives .unionTail (phrases.flatMap fun ts => .mark .bar :: parenthesized ts) trees none := by
  induction h with
  | nil => exact .unionEnd nofun
  | cons h _ ih =>
    exact .unionMore (intersection_parenthesized h (headOr_flatMap_ne _ (by decide))
      (headOr_flatMap_ne _ (by decide))) ih

/-- **A union of types in parentheses** is the union of their trees. -/
theorem typeOfTokens?_unionTokens {phrases : List (List Token)} {trees : List TypeNode}
    (h : List.Forall₂ (typeOfTokens? · = some ·) phrases trees) (hne : trees ≠ []) :
    typeOfTokens? (unionTokens phrases) = some (groupOf .union trees) := by
  cases h with
  | nil => exact absurd rfl hne
  | cons h hrest =>
    rw [typeOfTokens?_eq_some_iff]
    exact .ofUnion (.unionOf false (Derives.intersection_parenthesized h
      (headOr_flatMap_ne _ (by decide)) (headOr_flatMap_ne _ (by decide)))
      (Derives.unionTail_flatMap hrest))

end FluentBuilders.Grammar
