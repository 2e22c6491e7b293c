import FluentBuilders.Proofs.Source.Nesting
import FluentBuilders.Proofs.Source.Pieces

/-!
# Proofs/Source/Scanning — what the scanners pass over

`Walk` follows the scanners through a text whose brackets close: piece by piece, the depth and
whether an equals sign came just before.  A scanner that is looking for something outside brackets
passes over every walk on which that does not occur (`splitFrom_walk` and its companions), and the
text of a layout is such a walk when its lexemes nest (`walk_of_nest`).
-/

namespace FluentBuilders

open Piece

/-! ## Walks -/

/-- A piece that no scanner stops at outside brackets: a literal, a character of the class `quiet`,
or the equals sign of an arrow. -/
def QuietPiece (quiet : Char → Bool) (p : Piece) (ps : List Piece) : Prop :=
  ∀ c, p = .char c → quiet c = true ∨ (c = '=' ∧ ps.head? = some (.char '>'))

/-- **The way of a scanner** through pieces: from a depth and whether an equals sign came just
before, to the same after them. -/
inductive Walk (angles : Bool) (quiet : Char → Bool) : Nat → Bool → List Piece → Nat → Bool → Prop
  | nil (d : Nat) (eq : Bool) : Walk angles quiet d eq [] d eq
  | opens {p : Piece} {ps : List Piece} {d e : Nat} {eq eq' : Bool}
      (h : Bracket.ofPiece angles eq p = .opens) (hquiet : d = 0 → QuietPiece quiet p ps)
      (hs : Walk angles quiet (d + 1) false ps e eq') : Walk angles quiet d eq (p :: ps) e eq'
  | closes {p : Piece} {ps : List Piece} {d e : Nat} {eq eq' : Bool}
      (h : Bracket.ofPiece angles eq p = .closes) (hs : Walk angles quiet d false ps e eq') :
      Walk angles quiet (d + 1) eq (p :: ps) e eq'
  | plain {p : Piece} {ps : List Piece} {d e : Nat} {eq eq' : Bool}
      (h : Bracket.ofPiece angles eq p = .none) (hquiet : d = 0 → QuietPiece quiet p ps)
      (hs : Walk angles quiet d (isEquals p) ps e eq') : Walk angles quiet d eq (p :: ps) e eq'

theorem QuietPiece.append {quiet : Char → Bool} {p : Piece} {ps : List Piece}
    (h : QuietPiece quiet p ps) (rest : List Piece) : QuietPiece quiet p (ps ++ rest) := by
  intro c hc
  refine (h c hc).imp_right fun ⟨heq, hhead⟩ => ⟨heq, ?_⟩
  rw [List.head?_append, hhead]
  rfl

namespace Walk

variable {angles : Bool} {quiet : Char → Bool} {d e f : Nat} {eq eq' eq'' : Bool}
  {ps qs : List Piece}

theorem append (h : Walk angles quiet d eq ps e eq') (hs : Walk angles quiet e eq' qs f eq'') :
    Walk angles quiet d eq (ps ++ qs) f eq'' := by
  induction h with
  | nil => exact hs
  | opens hp hquiet _ ih => exact .opens hp (fun hd => (hquiet hd).append qs) (ih hs)
  | closes hp _ ih => exact .closes hp (ih hs)
  | plain hp hquiet _ ih => exact .plain hp (fun hd => (hquiet hd).append qs) (ih hs)

end Walk

/-- The equals sign before a piece matters to the `>` of an arrow alone. -/
theorem Bracket.ofPiece_true {angles : Bool} {p : Piece} (h : p ≠ .char '>') :
    ofPiece angles true p = ofPiece angles false p := by
  cases p with
  | literal => rfl
  | char c =>
    have hc : c ≠ '>' := fun hc => h (hc ▸ rfl)
    simp [ofPiece, hc]

/-- A walk can begin after an equals sign, unless that makes an arrow. -/
theorem Walk.after_equals {angles : Bool} {quiet : Char → Bool} {d e : Nat} {eq : Bool}
    {p : Piece} {ps : List Piece} (h : Walk angles quiet d false (p :: ps) e eq)
    (hp : p ≠ .char '>') : Walk angles quiet d true (p :: ps) e eq := by
  cases h with
  | opens hopens hquiet hs => exact .opens ((Bracket.ofPiece_true hp).trans hopens) hquiet hs
  | closes hcloses hs => exact .closes ((Bracket.ofPiece_true hp).trans hcloses) hs
  | plain hplain hquiet hs => exact .plain ((Bracket.ofPiece_true hp).trans hplain) hquiet hs

theorem isEquals_char (c : Char) : isEquals (.char c) = (c == '=') := by
  by_cases hc : c = '='
  · subst hc
    rfl
  · have : (Piece.char c) ≠ .char '=' := fun h => hc (Piece.char.inj h)
    rw [isEquals, beq_eq_false_iff_ne.2 this, beq_eq_false_iff_ne.2 hc]

/-- An equals sign is no bracket. -/
theorem isEquals_eq_false {angles eq : Bool} {p : Piece}
    (h : Bracket.ofPiece angles eq p ≠ .none) : isEquals p = false := by
  by_contra heq
  rw [Bool.not_eq_false, isEquals, beq_iff_eq] at heq
  subst heq
  revert h
  cases angles <;> cases eq <;> decide

theorem natCast_opens (d : Nat) : (d : Int) + 1 = ((d + 1 : Nat) : Int) := rfl

theorem natCast_closes (d : Nat) : ((d + 1 : Nat) : Int) - 1 = d := by omega

/-! ## Passing over a walk -/

theorem textOf_cons (p : Piece) (ps : List Piece) : textOf (p :: ps) = p.text ++ textOf ps := rfl

theorem textOf_append (ps qs : List Piece) : textOf (ps ++ qs) = textOf ps ++ textOf qs := by
  simp [textOf]

theorem Split.prepend_prepend (cs ds : List Char) (s : Split) :
    (s.prepend ds).prepend cs = s.prepend (cs ++ ds) := by
  simp [Split.prepend]

section

variable {angles : Bool} {quiet : Char → Bool} {d e : Nat} {eq eq' : Bool} {ps : List Piece}

/-- **A block goes on** over a walk inside it. -/
theorem blockFrom_walk (h : Walk angles quiet d eq ps e eq') (rest : List Piece) :
    blockFrom angles (d + 1) eq (ps ++ rest) =
      (ps ++ (blockFrom angles (e + 1) eq' rest).1, (blockFrom angles (e + 1) eq' rest).2) := by
  induction h with
  | nil => rfl
  | opens hp _ _ ih => rw [List.cons_append, blockFrom, hp]; simp only [ih]; rfl
  | closes hp _ ih =>
    rw [List.cons_append, blockFrom, hp]
    simp only [Nat.add_sub_cancel, ih]
    rw [if_neg (by omega)]
    rfl
  | plain hp _ _ ih => rw [List.cons_append, blockFrom, hp]; simp only [ih]; rfl

/-- **No cut** on a walk without separators. -/
theorem splitFrom_walk {separators : List Char} (h : Walk angles quiet d eq ps e eq')
    (hquiet : ∀ c, quiet c = true → separators.contains c = false)
    (hequals : separators.contains '=' = false) (rest : List Piece) :
    splitFrom angles separators d eq (ps ++ rest) =
      (splitFrom angles separators e eq' rest).prepend (textOf ps) := by
  induction h with
  | nil => rfl
  | opens hp _ _ ih =>
    rw [List.cons_append, splitFrom.eq_def]
    simp only [hp, natCast_opens, ih, textOf_cons, Split.prepend_prepend]
  | closes hp _ ih =>
    rw [List.cons_append, splitFrom.eq_def]
    simp only [hp, natCast_closes, ih, textOf_cons, Split.prepend_prepend]
  | @plain p ps d e eq eq' hp hq hs ih =>
    rw [List.cons_append, splitFrom.eq_def]
    simp only [hp, textOf_cons, ← Split.prepend_prepend, ← ih]
    cases p with
    | literal text => rfl
    | char c =>
      have hkeep : ¬((d : Int) = 0 ∧ separators.contains c = true ∧ (!(c == '>' && eq)) = true) := by
        rintro ⟨hd, hc, -⟩
        rcases hq (by exact_mod_cast hd) c rfl with hc' | ⟨rfl, -⟩
        · rw [hquiet c hc'] at hc
          cases hc
        · rw [hequals] at hc
          cases hc
      simp only [if_neg hkeep, isEquals_char]
      rfl

/-- **Nothing found** on a walk without the target and without a semicolon. -/
theorem findFrom_walk {target : Char} (h : Walk true quiet d eq ps e eq')
    (hquiet : ∀ c, quiet c = true → c ≠ target ∧ c ≠ ';') (hequals : target ≠ '=')
    (rest : List Piece) :
    findFrom target d eq (ps ++ rest) =
      (findFrom target e eq' rest).map fun (before, rest) => (textOf ps ++ before, rest) := by
  have hpass : ∀ {d : Nat} {p : Piece} {ps : List Piece}, (d = 0 → QuietPiece quiet p ps) →
      ¬((d : Int) = 0 ∧ p = .char target) ∧ ¬((d : Int) = 0 ∧ p = .char ';') := by
    intro d p ps hq
    constructor
    · rintro ⟨hd, rfl⟩
      rcases hq (by exact_mod_cast hd) target rfl with hc | ⟨hc, -⟩
      · exact (hquiet _ hc).1 rfl
      · exact hequals hc
    · rintro ⟨hd, rfl⟩
      rcases hq (by exact_mod_cast hd) ';' rfl with hc | ⟨hc, -⟩
      · exact (hquiet _ hc).2 rfl
      · exact absurd hc (by decide)
  induction h with
  | nil => simp [textOf]
  | opens hp hq _ ih =>
    rw [List.cons_append, findFrom, if_neg (hpass hq).1, if_neg (hpass hq).2]
    simp only [hp, isEquals_eq_false (by rw [hp]; decide), Bracket.depth, natCast_opens, ih,
      Option.map_map, textOf_cons, List.append_assoc]
    rfl
  | closes hp _ ih =>
    have hdepth : ∀ (d : Nat) (p q : Piece), ¬(((d + 1 : Nat) : Int) = 0 ∧ p = q) := by
      rintro d p q ⟨hd, -⟩
      omega
    rw [List.cons_append, findFrom, if_neg (hdepth _ _ _), if_neg (hdepth _ _ _)]
    simp only [hp, isEquals_eq_false (by rw [hp]; decide), Bracket.depth, natCast_closes, ih,
      Option.map_map, textOf_cons, List.append_assoc]
    rfl
  | plain hp hq _ ih =>
    rw [List.cons_append, findFrom, if_neg (hpass hq).1, if_neg (hpass hq).2]
    simp only [hp, Bracket.depth, ih, Option.map_map, textOf_cons, List.append_assoc]
    rfl

/-- **No default** on a walk without an equals sign of its own. -/
theorem splitDefaultFrom_walk (h : Walk true quiet d eq ps e eq')
    (hquiet : ∀ c, quiet c = true → c ≠ '=') (rest : List Piece) :
    splitDefaultFrom d eq (ps ++ rest) =
      (textOf ps ++ (splitDefaultFrom e eq' rest).1, (splitDefaultFrom e eq' rest).2) := by
  have hpass : ∀ {d : Nat} {p : Piece} {ps : List Piece}, (d = 0 → QuietPiece quiet p ps) →
      ¬((d : Int) = 0 ∧ isEquals p = true ∧ (ps ++ rest).head? ≠ some (.char '>')) := by
    rintro d p ps hq ⟨hd, heq, hhead⟩
    obtain rfl : p = .char '=' := by simpa [isEquals] using heq
    rcases (hq (by exact_mod_cast hd)).append rest '=' rfl with hc | ⟨-, hc⟩
    · exact hquiet _ hc rfl
    · exact hhead hc
  induction h with
  | nil => simp [textOf]
  | opens hp hq _ ih =>
    rw [List.cons_append, splitDefaultFrom, if_neg (hpass hq)]
    simp only [hp, isEquals_eq_false (by rw [hp]; decide), Bracket.depth, natCast_opens, ih,
      textOf_cons, List.append_assoc]
  | closes hp _ ih =>
    have hdepth : ∀ (d : Nat) (q : Prop), ¬(((d + 1 : Nat) : Int) = 0 ∧ q) := by
      rintro d q ⟨hd, -⟩
      omega
    rw [List.cons_append, splitDefaultFrom, if_neg (hdepth _ _)]
    simp only [hp, isEquals_eq_false (by rw [hp]; decide), Bracket.depth, natCast_closes, ih,
      textOf_cons, List.append_assoc]
  | plain hp hq _ ih =>
    rw [List.cons_append, splitDefaultFrom, if_neg (hpass hq)]
    simp only [hp, Bracket.depth, ih, textOf_cons, List.append_assoc]

/-- **An alias goes on** over a walk without semicolons and line breaks of its own. -/
theorem aliasBodyFrom_walk (h : Walk true quiet d eq ps e eq')
    (hquiet : ∀ c, quiet c = true → c ≠ ';' ∧ c ≠ '\n') (before : List Char)
    (rest : List Piece) :
    aliasBodyFrom d eq before (ps ++ rest) =
      aliasBodyFrom e eq' ((textOf ps).reverse ++ before) rest := by
  induction h generalizing before with
  | nil => rfl
  | opens hp _ _ ih =>
    rw [List.cons_append, aliasBodyFrom, hp]
    simp only [ih, textOf_cons, List.reverse_append, List.append_assoc]
  | closes hp _ ih =>
    rw [List.cons_append, aliasBodyFrom, hp]
    simp only [Nat.add_sub_cancel, ih, textOf_cons, List.reverse_append, List.append_assoc]
    rw [if_neg (by omega)]
  | @plain p ps d e eq eq' hp hq _ ih =>
    have hsemicolon : ¬(d = 0 ∧ p = .char ';') := by
      rintro ⟨hd, rfl⟩
      rcases hq hd ';' rfl with hc | ⟨hc, -⟩
      · exact (hquiet _ hc).1 rfl
      · exact absurd hc (by decide)
    have hbreak : ∀ q, ¬(d = 0 ∧ p = .char '\n' ∧ q) := by
      rintro q ⟨hd, rfl, -⟩
      rcases hq hd '\n' rfl with hc | ⟨hc, -⟩
      · exact (hquiet _ hc).2 rfl
      · exact absurd hc (by decide)
    rw [List.cons_append, aliasBodyFrom, hp]
    simp only [if_neg hsemicolon, if_neg (hbreak _), ih, textOf_cons, List.reverse_append,
      List.append_assoc]

end

/-! ## Layouts as walks -/

/-- A lexeme that no scanner stops at outside brackets. -/
def Lexeme.IsQuiet (quiet : Char → Bool) (x : Lexeme) : Prop :=
  x.isLiteral = true ∨ x = .token (.mark .arrow) ∨ ∀ c ∈ x.text, quiet c = true

/-- The depth after a lexeme. -/
def Lexeme.depthAfter (angles : Bool) (x : Lexeme) (d : Nat) : Nat :=
  match x.bracket angles with
  | .opens => d + 1
  | .closes => d - 1
  | .none => d

/-- **Gaps outside brackets** hold characters of the class `ok` only. -/
def Layout.GapsOutside (angles : Bool) (ok : Char → Prop) : Nat → Layout → Prop
  | _, [] => True
  | d, (x, gap) :: l =>
    (x.depthAfter angles d = 0 → ∀ c ∈ gap.text, ok c) ∧
      Layout.GapsOutside angles ok (x.depthAfter angles d) l

/-- A character that is neither a bracket nor an equals sign. -/
def IsPlain (angles : Bool) (c : Char) : Prop := Bracket.ofChar angles c = .none ∧ c ≠ '='

theorem isPlain_of_isAtomPart {angles : Bool} {c : Char} (h : Token.isAtomPart c = true) :
    IsPlain angles c := by
  have hne : ∀ d : Char, Token.isAtomPart d = false → c ≠ d := by
    rintro d hd rfl
    rw [h] at hd
    cases hd
  refine ⟨?_, hne '=' (by decide)⟩
  simp [Bracket.ofChar, hne '(' (by decide), hne '[' (by decide), hne '{' (by decide),
    hne ')' (by decide), hne ']' (by decide), hne '}' (by decide), hne '<' (by decide),
    hne '>' (by decide)]

theorem isPlain_of_isLayout {angles : Bool} {c : Char} (h : Token.isLayout c = true) :
    IsPlain angles c := by
  simp only [Token.isLayout, Bool.or_eq_true, beq_iff_eq] at h
  rcases h with (((rfl | rfl) | rfl) | rfl) | rfl <;>
    (cases angles <;> exact ⟨by decide, by decide⟩)

section

variable {angles : Bool} {quiet : Char → Bool} {d e : Nat} {eq : Bool} {ps : List Piece}

theorem ofPiece_char {c : Char} (h : IsPlain angles c) (eq : Bool) :
    Bracket.ofPiece angles eq (.char c) = .none := by
  rw [Bracket.ofPiece]
  split
  · rfl
  · exact h.1

/-- Plain characters lead from a depth to the same depth. -/
theorem walk_plain {cs : List Char} (hplain : ∀ c ∈ cs, IsPlain angles c)
    (hquiet : d = 0 → ∀ c ∈ cs, quiet c = true) (h : Walk angles quiet d false ps e eq) :
    Walk angles quiet d false (cs.map .char ++ ps) e eq := by
  induction cs with
  | nil => exact h
  | cons c cs ih =>
    rw [List.forall_mem_cons] at hplain
    have hfalse : isEquals (.char c) = false := by
      rw [isEquals_char, beq_eq_false_iff_ne.2 hplain.1.2]
    refine .plain (ofPiece_char hplain.1 false) ?_ ?_
    · rintro hd c' hc'
      cases hc'
      exact .inl (hquiet hd c List.mem_cons_self)
    · rw [hfalse]
      exact ih hplain.2 fun hd c' hc' => hquiet hd c' (List.mem_cons_of_mem _ hc')

/-- A mark of one character is the bracket that its character is. -/
theorem ofPiece_mark {m : Mark} {c : Char} (htext : m.text = [c]) :
    Bracket.ofPiece angles false (.char c) = m.bracket angles := by
  cases m <;> cases htext <;> first | rfl | (cases angles <;> rfl)

theorem isEquals_mark {m : Mark} {c : Char} (htext : m.text = [c]) :
    isEquals (.char c) = false := by
  cases m <;> cases htext <;> rfl

/-- A mark of one character is one step. -/
theorem walk_mark {m : Mark} {c : Char} (htext : m.text = [c]) (hquiet : d = 0 → quiet c = true)
    (hclose : m.bracket angles = .closes → d ≠ 0)
    (h : Walk angles quiet (Lexeme.depthAfter angles (.token (.mark m)) d) false ps e eq) :
    Walk angles quiet d false (.char c :: ps) e eq := by
  have hpiece : d = 0 → QuietPiece quiet (.char c) ps := by
    rintro hd c' hc'
    cases hc'
    exact .inl (hquiet hd)
  have hbracket : Bracket.ofPiece angles false (.char c) = m.bracket angles := ofPiece_mark htext
  change Walk angles quiet (match m.bracket angles with
    | .opens => d + 1 | .closes => d - 1 | .none => d) false ps e eq at h
  cases hm : m.bracket angles with
  | opens =>
    rw [hm] at h hbracket
    exact .opens hbracket hpiece h
  | closes =>
    rw [hm] at h hbracket
    obtain ⟨d', rfl⟩ := Nat.exists_eq_succ_of_ne_zero (hclose hm)
    exact .closes hbracket h
  | none =>
    rw [hm] at h hbracket
    refine .plain hbracket hpiece ?_
    rw [isEquals_mark htext]
    exact h

/-- **A lexeme is a step** of a scanner, or several at one depth. -/
theorem walk_lexeme {x : Lexeme} (hvalid : x.Valid) (hequals : x ≠ .equals)
    (harrow : quiet '>' = true) (hquiet : d = 0 → x.IsQuiet quiet)
    (hclose : x.bracket angles = .closes → d ≠ 0)
    (h : Walk angles quiet (x.depthAfter angles d) false ps e eq) :
    Walk angles quiet d false (x.pieces ++ ps) e eq := by
  cases hliteral : x.isLiteral with
  | true =>
    obtain ⟨quote, body, -, -, hpieces, -⟩ := x.exists_literal hvalid hliteral
    have hdepth : x.depthAfter angles d = d := by
      rcases x with (_ | _ | _ | _ | _ | m) | _ | _ | _ <;> first | rfl | cases hliteral
    rw [hdepth] at h
    rw [hpieces]
    exact .plain rfl (fun _ _ hc => nomatch hc) h
  | false =>
    rw [Lexeme.pieces_of_not_isLiteral hliteral]
    by_cases hx : x = .token (.mark .arrow)
    · subst hx
      refine .plain (by cases angles <;> rfl) ?_ (.plain rfl ?_ h)
      · rintro - c hc
        cases hc
        exact .inr ⟨rfl, rfl⟩
      · rintro - c hc
        cases hc
        exact .inl harrow
    have hq : d = 0 → ∀ c ∈ x.text, quiet c = true := fun hd =>
      ((hquiet hd).resolve_left (by simp [hliteral])).resolve_left hx
    cases x with
    | token t =>
      cases Token.shape_of_read? hvalid with
      | word name hatom =>
        exact walk_plain (fun c hc => isPlain_of_isAtomPart (hatom c hc)) hq h
      | number text hnumeric =>
        exact walk_plain (fun c hc => isPlain_of_isAtomPart (hnumeric.isAtom c hc)) hq h
      | negative text hnumeric =>
        exact walk_plain (fun c hc => isPlain_of_isAtomPart (hnumeric.isAtom c hc)) hq h
      | string => cases hliteral
      | template => cases hliteral
      | mark m =>
        by_cases hdots : m = .ellipsis
        · subst hdots
          refine walk_plain ?_ hq h
          cases angles <;> simp [Lexeme.text, Token.text, Mark.text, IsPlain, Bracket.ofChar]
        · obtain ⟨c, htext⟩ : ∃ c, m.text = [c] := by
            cases m <;> first | exact ⟨_, rfl⟩ | exact absurd rfl hdots | exact absurd rfl hx
          have hc : d = 0 → quiet c = true := fun hd => hq hd c (by
            rw [show (Lexeme.token (.mark m)).text = [c] from htext]
            exact List.mem_singleton_self c)
          rw [show (Lexeme.token (.mark m)).text = [c] from htext]
          exact walk_mark htext hc hclose h
    | keyword word =>
      exact walk_plain (fun c hc => isPlain_of_isAtomPart (isAtom_of_isAsciiName hvalid c hc)) hq h
    | equals => exact absurd rfl hequals
    | star =>
      refine walk_plain ?_ hq h
      cases angles <;> simp [Lexeme.text, IsPlain, Bracket.ofChar]

/-- The depth after a lexeme, in a list of lexemes that nest. -/
theorem Nest.cons_inv {P : Lexeme → Prop} {x : Lexeme} {xs : List Lexeme}
    (h : Nest angles P d (x :: xs) e) :
    Nest angles P (x.depthAfter angles d) xs e ∧ (x.bracket angles = .closes → d ≠ 0) ∧
      (d = 0 → P x) := by
  unfold Lexeme.depthAfter
  cases h with
  | opens hx hquiet hs => rw [hx]; exact ⟨hs, nofun, hquiet⟩
  | closes hx hs => rw [hx]; exact ⟨hs, by simp, by simp⟩
  | plain hx hquiet hs => rw [hx]; exact ⟨hs, nofun, hquiet⟩

/-- **A layout whose lexemes nest is a walk** for every scanner that neither its lexemes nor its
gaps stop outside brackets. -/
theorem walk_of_nest {l : Layout} (hnest : Nest angles (·.IsQuiet quiet) d l.lexemes e)
    (hvalid : ∀ x ∈ l.lexemes, x.Valid) (hequals : .equals ∉ l.lexemes) (hbare : l.IsBare)
    (harrow : quiet '>' = true) (hgaps : l.GapsOutside angles (quiet · = true) d) :
    Walk angles quiet d false l.pieces e false := by
  induction l generalizing d with
  | nil =>
    cases hnest
    exact .nil _ _
  | cons p l ih =>
    obtain ⟨x, gap⟩ := p
    simp only [Layout.lexemes, List.map_cons] at hvalid hequals hnest
    rw [List.forall_mem_cons] at hvalid
    rw [List.mem_cons, not_or] at hequals
    rw [Layout.IsBare, List.forall_mem_cons] at hbare
    obtain ⟨hs, hclose, hquiet⟩ := hnest.cons_inv
    rw [Layout.pieces_cons]
    refine walk_lexeme hvalid.1 (Ne.symm hequals.1) harrow hquiet hclose ?_
    exact walk_plain (fun c hc => isPlain_of_isLayout (hbare.1 c hc)) hgaps.1
      (ih hs hvalid.2 hequals.2 hbare.2 hgaps.2)

end

end FluentBuilders
