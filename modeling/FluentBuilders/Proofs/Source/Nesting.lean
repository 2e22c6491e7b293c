import FluentBuilders.Proofs.Syntax.Derivation
import FluentBuilders.Proofs.Syntax.Layout
import FluentBuilders.Source.Boundary

/-!
# Proofs/Source/Nesting — the brackets of what is written close

`Nest angles quiet d xs e` says that the lexemes `xs` lead from the depth `d` of open brackets to
the depth `e` without closing a bracket that was open before, and that the lexemes outside all
brackets are of the kind `quiet`.  Every phrase of the grammar closes what it opens, and has no
comma and no semicolon of its own outside brackets (`Derives.nest`).
-/

namespace FluentBuilders

/-! ## Depth -/

/-- What a mark does to the depth of brackets; `angles` says whether angle brackets count. -/
def Mark.bracket (angles : Bool) : Mark → Bracket
  | .openParen | .openBrace | .openBracket => .opens
  | .closeParen | .closeBrace | .closeBracket => .closes
  | .openAngle => if angles then .opens else .none
  | .closeAngle => if angles then .closes else .none
  | _ => .none

/-- What a lexeme does to the depth of brackets. -/
def Lexeme.bracket (angles : Bool) : Lexeme → Bracket
  | .token (.mark m) => m.bracket angles
  | _ => .none

/-- **From one depth to another**, `quiet` outside all brackets. -/
inductive Nest (angles : Bool) (quiet : Lexeme → Prop) : Nat → List Lexeme → Nat → Prop
  | nil (d : Nat) : Nest angles quiet d [] d
  | opens {x : Lexeme} {d e : Nat} {xs : List Lexeme} (h : x.bracket angles = .opens)
      (hquiet : d = 0 → quiet x) (hs : Nest angles quiet (d + 1) xs e) :
      Nest angles quiet d (x :: xs) e
  | closes {x : Lexeme} {d e : Nat} {xs : List Lexeme} (h : x.bracket angles = .closes)
      (hs : Nest angles quiet d xs e) : Nest angles quiet (d + 1) (x :: xs) e
  | plain {x : Lexeme} {d e : Nat} {xs : List Lexeme} (h : x.bracket angles = .none)
      (hquiet : d = 0 → quiet x) (hs : Nest angles quiet d xs e) : Nest angles quiet d (x :: xs) e

namespace Nest

variable {angles : Bool} {quiet : Lexeme → Prop} {d e f : Nat} {xs ys : List Lexeme}

theorem append (h : Nest angles quiet d xs e) (hs : Nest angles quiet e ys f) :
    Nest angles quiet d (xs ++ ys) f := by
  induction h with
  | nil => exact hs
  | opens hx hquiet _ ih => exact .opens hx hquiet (ih hs)
  | closes hx _ ih => exact .closes hx (ih hs)
  | plain hx hquiet _ ih => exact .plain hx hquiet (ih hs)

/-- Another kind of lexemes outside brackets. -/
theorem mono {quiet' : Lexeme → Prop} (h : Nest angles quiet d xs e)
    (himp : ∀ x ∈ xs, quiet x → quiet' x) : Nest angles quiet' d xs e := by
  induction h with
  | nil => exact .nil _
  | opens hx hquiet _ ih =>
    rw [List.forall_mem_cons] at himp
    exact .opens hx (fun hd => himp.1 (hquiet hd)) (ih himp.2)
  | closes hx _ ih =>
    rw [List.forall_mem_cons] at himp
    exact .closes hx (ih himp.2)
  | plain hx hquiet _ ih =>
    rw [List.forall_mem_cons] at himp
    exact .plain hx (fun hd => himp.1 (hquiet hd)) (ih himp.2)

end Nest

/-! ## The phrases of the grammar -/

namespace Grammar

/-- The tokens as lexemes. -/
abbrev lexemesOf (ts : List Token) : List Lexeme := ts.map .token

/-- No comma and no semicolon. -/
def Unseparated (x : Lexeme) : Prop :=
  x ≠ .token (.mark .comma) ∧ x ≠ .token (.mark .semicolon)

/-- The categories whose phrases close a bracket that was opened before them. -/
def Category.closing : Category → Nat
  | .function | .parameters | .elements | .members | .argumentList => 1
  | _ => 0

section

variable {d e : Nat} {ts : List Token}

theorem nest_word {w : String} (h : Nest true Unseparated d (lexemesOf ts) e) :
    Nest true Unseparated d (lexemesOf (.word w :: ts)) e :=
  .plain rfl (fun _ => by simp [Unseparated]) h

theorem nest_tokenIf {t : Token} {present : Bool} (hplain : (Lexeme.token t).bracket true = .none)
    (hquiet : Unseparated (.token t)) (h : Nest true Unseparated d (lexemesOf ts) e) :
    Nest true Unseparated d (lexemesOf (tokenIf present t ++ ts)) e := by
  cases present with
  | true => exact .plain hplain (fun _ => hquiet) h
  | false => exact h

theorem nest_dottedTokens {parts : List String} (h : Nest true Unseparated d (lexemesOf ts) e) :
    Nest true Unseparated d (lexemesOf (dottedTokens parts ++ ts)) e := by
  induction parts with
  | nil => exact h
  | cons part parts ih => exact .plain rfl (fun _ => by simp [Unseparated]) (nest_word ih)

theorem nest_propertyName {key : List Token} {name : String}
    (hkey : propertyName? key = some (name, [])) (h : Nest true Unseparated d (lexemesOf ts) e) :
    Nest true Unseparated d (lexemesOf (key ++ ts)) e := by
  unfold propertyName? at hkey
  split at hkey <;> cases hkey
  · exact nest_word h
  · exact .plain rfl (fun _ => by simp [Unseparated]) h
  · exact .plain rfl (fun _ => by simp [Unseparated]) h
  · exact .opens rfl (fun _ => by simp [Unseparated])
      (.plain rfl (fun _ => by simp [Unseparated]) (.closes rfl h))
  · exact .opens rfl (fun _ => by simp [Unseparated])
      (.plain rfl (fun _ => by simp [Unseparated]) (.closes rfl h))

theorem nest_append {xs ys : List Token} {f : Nat} (h : Nest true Unseparated d (lexemesOf xs) e)
    (hs : Nest true Unseparated e (lexemesOf ys) f) :
    Nest true Unseparated d (lexemesOf (xs ++ ys)) f := by
  rw [lexemesOf, List.map_append]
  exact h.append hs

/-- A mark that is no bracket, at a depth where it may stand. -/
theorem nest_mark {m : Mark} (hplain : m.bracket true = .none)
    (hquiet : d = 0 → Unseparated (.token (.mark m)))
    (h : Nest true Unseparated d (lexemesOf ts) e) :
    Nest true Unseparated d (lexemesOf (.mark m :: ts)) e := .plain hplain hquiet h

theorem nest_opens {m : Mark} (hopens : m.bracket true = .opens)
    (h : Nest true Unseparated (d + 1) (lexemesOf ts) e) :
    Nest true Unseparated d (lexemesOf (.mark m :: ts)) e :=
  .opens hopens (fun _ => by constructor <;> (rintro ⟨⟩; cases hopens)) h

end

/-- **Every phrase closes what it opens.** -/
theorem Derives.nest {c : Category} {ts : List Token} {v : c.Tree} {next : Option Token}
    (h : Derives c ts v next) (d : Nat) :
    Nest true Unseparated (d + c.closing) (lexemesOf ts) d := by
  induction h generalizing d with
  | ofFunction _ _ ih => exact nest_opens rfl (ih d)
  | ofUnion _ ih => exact ih d
  | arrow _ _ ihp ihr =>
    exact nest_append (ihp d) (nest_mark rfl (fun _ => by simp [Unseparated]) (ihr d))
  | noParameters => exact .closes rfl (.nil d)
  | lastParameter _ ih => exact nest_append (ih (d + 1)) (.closes rfl (.nil d))
  | moreParameters _ _ ih ihs =>
    exact nest_append (ih (d + 1)) (nest_mark rfl (fun h => absurd h (by simp)) (ihs d))
  | parameter name optional spread _ ih =>
    exact nest_tokenIf rfl (by simp [Unseparated]) (nest_word (nest_tokenIf rfl
      (by simp [Unseparated]) (nest_mark rfl (fun _ => by simp [Unseparated]) (ih d))))
  | unionOf front _ _ ih ihs =>
    exact nest_tokenIf rfl (by simp [Unseparated]) (nest_append (ih d) (ihs d))
  | unionEnd => exact .nil d
  | unionMore _ _ ih ihs =>
    exact nest_mark rfl (fun _ => by simp [Unseparated]) (nest_append (ih d) (ihs d))
  | intersectionOf front _ _ ih ihs =>
    exact nest_tokenIf rfl (by simp [Unseparated]) (nest_append (ih d) (ihs d))
  | intersectionEnd => exact .nil d
  | intersectionMore _ _ ih ihs =>
    exact nest_mark rfl (fun _ => by simp [Unseparated]) (nest_append (ih d) (ihs d))
  | keyofOf _ ih => exact nest_word (ih d)
  | readonlyOf _ ih => exact nest_word (ih d)
  | uniqueOf name => exact nest_word (nest_word (.nil d))
  | bracketed _ _ ih ihs => exact nest_append (ih d) (ihs d)
  | bracketsEnd => exact .nil d
  | arrayOf _ ih => exact nest_opens rfl (.closes rfl (ih d))
  | indexedBy _ _ ih ihs => exact nest_opens rfl (nest_append (ih (d + 1)) (.closes rfl (ihs d)))
  | parens _ ih => exact nest_opens rfl (nest_append (ih (d + 1)) (.closes rfl (.nil d)))
  | object _ ih => exact nest_opens rfl (ih d)
  | tuple _ ih => exact nest_opens rfl (ih d)
  | string literal => exact .plain rfl (fun _ => by simp [Unseparated]) (.nil d)
  | number text => exact .plain rfl (fun _ => by simp [Unseparated]) (.nil d)
  | negative text => exact .plain rfl (fun _ => by simp [Unseparated]) (.nil d)
  | template text => exact .plain rfl (fun _ => by simp [Unseparated]) (.nil d)
  | query name parts =>
    have hempty : Nest true Unseparated d (lexemesOf []) d := .nil d
    have := @nest_dottedTokens d d [] parts hempty
    rw [List.append_nil] at this
    exact nest_word (nest_word this)
  | imported literal name parts _ _ ih =>
    refine nest_word (nest_opens rfl (.plain rfl (fun h => absurd h (by simp)) (.closes rfl ?_)))
    exact nest_mark rfl (fun _ => by simp [Unseparated]) (nest_word (nest_dottedTokens (ih d)))
  | reference name parts _ _ _ ih => exact nest_word (nest_dottedTokens (ih d))
  | noArguments => exact .nil d
  | someArguments _ ih => exact nest_opens rfl (ih d)
  | lastArgument _ ih => exact nest_append (ih (d + 1)) (.closes rfl (.nil d))
  | moreArguments _ _ ih ihs =>
    exact nest_append (ih (d + 1)) (nest_mark rfl (fun h => absurd h (by simp)) (ihs d))
  | noElements => exact .closes rfl (.nil d)
  | lastElement _ ih => exact nest_append (ih (d + 1)) (.closes rfl (.nil d))
  | moreElements _ _ ih ihs =>
    exact nest_append (ih (d + 1)) (nest_mark rfl (fun h => absurd h (by simp)) (ihs d))
  | restElement _ ih => exact nest_mark rfl (fun _ => by simp [Unseparated]) (ih d)
  | namedElement name optional _ _ ih =>
    exact nest_word (nest_tokenIf rfl (by simp [Unseparated])
      (nest_mark rfl (fun _ => by simp [Unseparated]) (ih d)))
  | plainElement _ _ ih => exact ih d
  | noMembers => exact .closes rfl (.nil d)
  | moreMembers sep hsep _ _ ih ihs =>
    refine nest_append (ih (d + 1)) ?_
    simp only [separators, List.mem_cons, List.not_mem_nil, or_false] at hsep
    rcases hsep with rfl | rfl | rfl
    · exact ihs d
    · exact nest_mark rfl (fun h => absurd h (by simp)) (ihs d)
    · exact nest_mark rfl (fun h => absurd h (by simp)) (ihs d)
  | index key readonly _ _ ihk ihv =>
    refine nest_tokenIf rfl (by simp [Unseparated]) (nest_opens rfl (nest_word
      (nest_mark rfl (fun h => absurd h (by simp)) (nest_append (ihk (d + 1)) (.closes rfl ?_)))))
    exact nest_mark rfl (fun _ => by simp [Unseparated]) (ihv d)
  | method name optional hkey _ _ _ ihp ihr =>
    exact nest_propertyName hkey (nest_tokenIf rfl (by simp [Unseparated])
      (nest_opens rfl (nest_append (ihp d) (ihr d))))
  | property name optional readonly hkey _ _ _ _ ih =>
    exact nest_tokenIf rfl (by simp [Unseparated]) (nest_propertyName hkey
      (nest_tokenIf rfl (by simp [Unseparated]) (ih d)))
  | noAscription => exact .nil d
  | someAscription _ ih => exact nest_mark rfl (fun _ => by simp [Unseparated]) (ih d)

end Grammar

end FluentBuilders
