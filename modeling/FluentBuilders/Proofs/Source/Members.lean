import FluentBuilders.Proofs.Syntax.Lookahead
import FluentBuilders.Proofs.Source.Scanning

/-!
# Proofs/Source/Members — where one member of an object type ends and the next begins

The members of an object type stand in **rows** divided by separators, and the members of a row, a
`Run`, stand next to each other (`Derives.rows`).  Between two tokens of one member, outside
brackets, the first needs something after it or the second is no key that a line could begin with
(`Derives.joined`).  So a line break in front of such a key, after something that could end there,
stands between two members (`Run.split`).
-/

namespace FluentBuilders.Grammar

/-! ## In front of a closing brace -/

section

variable {next stop : Option Token}

/-- The end of all tokens, or a closing brace. -/
def Stops (stop : Option Token) : Prop := ∀ t ∈ stop, t = .mark .closeBrace

theorem Stops.ne (h : Stops stop) {t : Token} (ht : t ≠ .mark .closeBrace) : stop ≠ some t := by
  rintro rfl
  exact ht (h t rfl)

theorem Derives.headOr_stop {c : Category} {xs ys : List Token} {v : c.Tree}
    (h : Derives c xs v (headOr ys next)) (hstop : Derives c xs v stop) :
    Derives c xs v (headOr ys stop) := by
  cases ys with
  | nil => exact hstop
  | cons => exact h

theorem Stops.headOr_ne (hstop : Stops stop) {t : Token} {ts : List Token}
    (ht : t ≠ .mark .closeBrace) (h : headOr ts next ≠ some t) : headOr ts stop ≠ some t := by
  cases ts with
  | nil => exact hstop.ne ht
  | cons => exact h

theorem Stops.startsElementName_append (hstop : Stops stop) {ts : List Token} (hne : ts ≠ [])
    (h : startsElementName (ts ++ next.toList) = false) :
    startsElementName (ts ++ stop.toList) = false := by
  match ts with
  | [t] =>
    cases stop with
    | none => unfold startsElementName; split <;> simp_all
    | some u =>
      obtain rfl := hstop u rfl
      unfold startsElementName
      split <;> simp_all
  | t :: u :: ts =>
    simp only [List.cons_append] at h ⊢
    unfold startsElementName at h ⊢
    split at h <;> simp_all

/-- **Every phrase can end in front of a closing brace**, and at the end of all tokens, whatever it
was read in front of. -/
theorem Derives.before_stop {c : Category} {ts : List Token} {v : c.Tree}
    (h : Derives c ts v next) (hstop : Stops stop) : Derives c ts v stop := by
  induction h with
  | ofFunction starts _ ih => exact .ofFunction starts ih
  | ofUnion _ ih => exact .ofUnion ih
  | arrow hp _ _ ih => exact .arrow hp ih
  | noParameters => exact .noParameters
  | lastParameter h => exact .lastParameter h
  | moreParameters h _ _ ih => exact .moreParameters h ih
  | parameter name optional spread _ ih => exact .parameter name optional spread ih
  | unionOf front h _ ih ihs => exact .unionOf front (h.headOr_stop ih) ihs
  | unionEnd => exact .unionEnd (hstop.ne (by simp))
  | unionMore h _ ih ihs => exact .unionMore (h.headOr_stop ih) ihs
  | intersectionOf front h _ ih ihs => exact .intersectionOf front (h.headOr_stop ih) ihs
  | intersectionEnd => exact .intersectionEnd (hstop.ne (by simp))
  | intersectionMore h _ ih ihs => exact .intersectionMore (h.headOr_stop ih) ihs
  | keyofOf _ ih => exact .keyofOf ih
  | readonlyOf _ ih => exact .readonlyOf ih
  | uniqueOf name => exact .uniqueOf name
  | bracketed h _ ih ihs => exact .bracketed (h.headOr_stop ih) ihs
  | bracketsEnd => exact .bracketsEnd (hstop.ne (by simp))
  | arrayOf _ ih => exact .arrayOf ih
  | indexedBy h _ _ ih => exact .indexedBy h ih
  | parens h => exact .parens h
  | object _ ih => exact .object ih
  | tuple _ ih => exact .tuple ih
  | string literal => exact .string literal
  | number text => exact .number text
  | negative text => exact .negative text
  | template text => exact .template text
  | query name parts => exact .query name parts (hstop.ne (by simp))
  | imported literal name parts h _ ih =>
    exact .imported literal name parts (hstop.headOr_ne (by simp) h) ih
  | reference name parts hn h _ ih =>
    exact .reference name parts hn (hstop.headOr_ne (by simp) h) ih
  | noArguments => exact .noArguments (hstop.ne (by simp))
  | someArguments _ ih => exact .someArguments ih
  | lastArgument h => exact .lastArgument h
  | moreArguments h _ _ ih => exact .moreArguments h ih
  | noElements => exact .noElements
  | lastElement h => exact .lastElement h
  | moreElements h _ _ ih => exact .moreElements h ih
  | restElement _ ih => exact .restElement ih
  | namedElement name optional hn _ ih => exact .namedElement name optional hn ih
  | plainElement hn h ih =>
    obtain ⟨x, xs, rfl, -⟩ := h.type_cons
    exact .plainElement (hstop.startsElementName_append (by simp) hn) ih
  | noMembers => exact .noMembers
  | @moreMembers xs m ys ms next sep hsep h _ ih ihs =>
    exact .moreMembers sep hsep (h.headOr_stop ih) ihs
  | index key readonly hk _ _ ih => exact .index key readonly hk ih
  | method name optional hkey hplain hp _ ihp ihr =>
    exact .method name optional hkey hplain (hp.headOr_stop ihp) ihr
  | property name optional readonly hkey hplain hopt hparen _ ih =>
    exact .property name optional readonly hkey hplain
      (fun h => hstop.headOr_ne (by simp) (hopt h)) (hstop.headOr_ne (by simp) hparen) ih
  | noAscription => exact .noAscription (hstop.ne (by simp))
  | someAscription _ ih => exact .someAscription ih

theorem Derives.before_brace {c : Category} {ts : List Token} {v : c.Tree}
    (h : Derives c ts v next) : Derives c ts v (some (.mark .closeBrace)) :=
  h.before_stop (by simp [Stops])

theorem Derives.before_end {c : Category} {ts : List Token} {v : c.Tree}
    (h : Derives c ts v next) : Derives c ts v none :=
  h.before_stop (by simp [Stops])

end

/-! ## Rows of members -/

/-- **Members next to each other**, with no separators between them. -/
inductive Run : List Token → List Member → Prop
  | nil : Run [] []
  | cons {xs m ys ms} (h : Derives .member xs m (headOr ys (some (.mark .closeBrace))))
      (hs : Run ys ms) : Run (xs ++ ys) (m :: ms)

/-- **Rows of members** with a separator between each two rows. -/
inductive Rows : List Token → List (List Member) → Prop
  | last {ts ms} (h : Run ts ms) : Rows ts [ms]
  | more {xs ms ys mss} {sep : Mark} (hsep : sep = .semicolon ∨ sep = .comma) (h : Run xs ms)
      (hs : Rows ys mss) : Rows (xs ++ .mark sep :: ys) (ms :: mss)

theorem Run.eq_nil {ms : List Member} (h : Run [] ms) : ms = [] := by
  generalize hts : ([] : List Token) = ts at h
  cases h with
  | nil => rfl
  | cons h _ =>
    obtain ⟨x, xs, rfl, -⟩ := h.member_cons
    cases hts

/-- A run in braces is the members of an object type. -/
theorem Run.members {ts : List Token} {ms : List Member} (h : Run ts ms) (next : Option Token) :
    Derives .members (ts ++ [Token.mark .closeBrace]) ms next := by
  induction h with
  | nil => exact .noMembers
  | @cons xs m ys ms h _ ih =>
    rw [List.append_assoc]
    have hm : Derives .member xs m (headOr ([] ++ (ys ++ [Token.mark .closeBrace])) next) := by
      rw [List.nil_append, headOr_append]
      exact h
    exact .moreMembers [] (by simp [separators]) hm ih

/-- A member in front of rows belongs to the first of them. -/
theorem Rows.cons_member {xs ts : List Token} {m : Member} {mss : List (List Member)}
    (h : Derives .member xs m (headOr ts (some (.mark .closeBrace)))) (hs : Rows ts mss) :
    ∃ mss', Rows (xs ++ ts) mss' ∧ mss'.flatten = m :: mss.flatten := by
  cases hs with
  | @last _ ms hrun => exact ⟨[m :: ms], .last (.cons h hrun), rfl⟩
  | @more ys ms zs mss sep hsep hrun hrows =>
    have hm : Derives .member xs m (headOr ys (some (.mark .closeBrace))) := by
      cases ys with
      | nil => exact h.before_brace
      | cons => exact h
    refine ⟨(m :: ms) :: mss, ?_, rfl⟩
    rw [← List.append_assoc]
    exact .more hsep (.cons hm hrun) hrows

/-- **The members of an object type stand in rows.** -/
theorem Derives.rows {ts : List Token} {ms : List Member} {next : Option Token}
    (h : Derives .members ts ms next) :
    ∃ xs mss, ts = xs ++ [Token.mark .closeBrace] ∧ Rows xs mss ∧ mss.flatten = ms := by
  induction hn : ts.length using Nat.strong_induction_on generalizing ts ms with
  | _ n ih =>
    cases h with
    | noMembers => exact ⟨[], [[]], rfl, .last .nil, rfl⟩
    | @moreMembers xs m ys ms _ sep hsep h hs =>
      obtain ⟨x, xs', rfl, -⟩ := h.member_cons
      obtain ⟨zs, mss, rfl, hrows, rfl⟩ := ih ys.length (by simp at hn; omega) hs rfl
      simp only [separators, List.mem_cons, List.not_mem_nil, or_false] at hsep
      rcases hsep with rfl | rfl | rfl
      · rw [List.nil_append, headOr_append] at h
        obtain ⟨mss', hrows', hflat⟩ := hrows.cons_member h
        exact ⟨_, mss', by simp, hrows', hflat⟩
      all_goals
        have hrun : Run (x :: xs') [m] := by simpa using Run.cons h.before_brace Run.nil
      · have hsep : Mark.semicolon = .semicolon ∨ Mark.semicolon = .comma := .inl rfl
        exact ⟨_, [m] :: mss, by simp, .more hsep hrun hrows, rfl⟩
      · have hsep : Mark.comma = .semicolon ∨ Mark.comma = .comma := .inr rfl
        exact ⟨_, [m] :: mss, by simp, .more hsep hrun hrows, rfl⟩

/-! ## An object type in braces -/

theorem Derives.object_of_brackets {p : TypeNode} {ys : List Token} {ms : List Member}
    {next : Option Token} (h : Derives (.brackets p) ys (.object ms) next) :
    ys = [] ∧ p = .object ms := by
  induction hn : ys.length using Nat.strong_induction_on generalizing p ys with
  | _ n ih =>
    cases h with
    | bracketsEnd => exact ⟨rfl, rfl⟩
    | arrayOf h => cases (ih _ (by simp at hn; omega) h rfl).2
    | indexedBy _ h => cases (ih _ (by simp at hn; omega) h rfl).2

theorem groupOf_eq_object {make : List TypeNode → TypeNode} {t : TypeNode} {ts : List TypeNode}
    {ms : List Member} (hmake : ∀ ts, make ts ≠ .object ms) (h : groupOf make (t :: ts) = .object ms) :
    ts = [] ∧ t = .object ms := by
  cases ts with
  | nil => exact ⟨rfl, h⟩
  | cons => exact absurd h (hmake _)

theorem Derives.members_of_operand {us ts : List Token} {v : TypeNode} {ms : List Member}
    {next : Option Token} (h : Derives .operand us v next) (hus : us = .mark .openBrace :: ts)
    (hv : v = .object ms) : Derives .members ts ms next := by
  cases h with
  | bracketed h hs =>
    subst hv
    obtain ⟨rfl, rfl⟩ := hs.object_of_brackets
    cases h with
    | object h =>
      simp only [List.append_nil, List.cons.injEq, true_and] at hus
      exact hus ▸ h
    | _ => cases hus
  | _ => cases hus

/-- **An object type that begins with its brace** is its members. -/
theorem Derives.members_of_type {ts : List Token} {ms : List Member} {next : Option Token}
    (h : Derives .type (.mark .openBrace :: ts) (.object ms) next) :
    Derives .members ts ms next := by
  generalize hus : Token.mark .openBrace :: ts = us at h
  generalize hv : TypeNode.object ms = v at h
  cases h with
  | ofFunction => cases hus
  | ofUnion h =>
    cases h with
    | unionOf front h hs =>
      obtain ⟨rfl, rfl⟩ := groupOf_eq_object (by simp) hv.symm
      cases hs
      cases front with
      | true => cases hus
      | false =>
        generalize hu : TypeNode.object ms = u at h
        cases h with
        | intersectionOf front h hs =>
          obtain ⟨rfl, rfl⟩ := groupOf_eq_object (by simp) hu.symm
          cases hs
          cases front with
          | true => cases hus
          | false =>
            simp only [tokenIf_false, List.nil_append, List.append_nil] at hus
            exact h.members_of_operand hus.symm rfl

/-! ## Inside a member -/

/-- The depth of brackets after tokens. -/
def depthAfter (d : Nat) : List Token → Nat
  | [] => d
  | t :: ts => depthAfter (Lexeme.depthAfter true (.token t) d) ts

theorem depthAfter_append (d : Nat) (xs ys : List Token) :
    depthAfter d (xs ++ ys) = depthAfter (depthAfter d xs) ys := by
  induction xs generalizing d with
  | nil => rfl
  | cons x xs ih => exact ih _

theorem depthAfter_of_nest {P : Lexeme → Prop} {d e : Nat} {ts : List Token}
    (h : Nest true P d (lexemesOf ts) e) : depthAfter d ts = e := by
  induction ts generalizing d with
  | nil => cases h; rfl
  | cons t ts ih => exact ih h.cons_inv.1

theorem nest_of_append {P : Lexeme → Prop} {d e : Nat} {xs ys : List Token}
    (h : Nest true P d (lexemesOf (xs ++ ys)) e) :
    Nest true P (depthAfter d xs) (lexemesOf ys) e := by
  induction xs generalizing d with
  | nil => exact h
  | cons x xs ih => exact ih h.cons_inv.1

/-- A token that needs something after it. -/
def needsMore : Token → Bool
  | .word w => trailingOperators.contains w
  | .mark .bar | .mark .ampersand | .mark .colon | .mark .dot | .mark .arrow => true
  | _ => false

/-- A mark that can follow a key. -/
def followsKey : Token → Bool
  | .mark .colon | .mark .question | .mark .openParen => true
  | _ => false

/-- Tokens that a line with a key could begin with. -/
def opensLine : List Token → Bool
  | .word _ :: _ => true
  | .string _ :: _ => true
  | .mark .openBracket :: .string _ :: .mark .closeBracket :: t :: _ => followsKey t
  | .mark .openBracket :: .number _ :: .mark .closeBracket :: t :: _ => followsKey t
  | _ => false

/-- **No member begins** after the token `x`: it needs more, or no key comes next. -/
def Seam (x : Token) (rest : List Token) : Prop := needsMore x = true ∨ opensLine rest = false

/-- **No member begins inside** the tokens, which go on with `rest`, outside brackets. -/
def Joined : Nat → List Token → List Token → Prop
  | _, [], _ => True
  | d, x :: ts, rest =>
    (ts ≠ [] → Lexeme.depthAfter true (.token x) d = 0 → Seam x (ts ++ rest)) ∧
      Joined (Lexeme.depthAfter true (.token x) d) ts rest

section

variable {P : Lexeme → Prop} {d e : Nat} {xs ys ts rest : List Token} {x : Token}

theorem Joined.append (h : Joined d xs (ys ++ rest)) (hs : Joined (depthAfter d xs) ys rest)
    (hseam : depthAfter d xs = 0 → ys ≠ [] → opensLine (ys ++ rest) = false) :
    Joined d (xs ++ ys) rest := by
  induction xs generalizing d with
  | nil => exact hs
  | cons x xs ih =>
    refine ⟨fun _ hd => ?_, ih h.2 hs hseam⟩
    cases xs with
    | nil =>
      by_cases hys : ys = []
      · contradiction
      · exact .inr (hseam hd hys)
    | cons y xs =>
      change Seam x ((y :: xs) ++ ys ++ rest)
      rw [List.append_assoc]
      exact h.1 (by simp) hd

/-- What the tokens before the end of joined tokens say. -/
theorem Joined.seam {u : List Token} (h : Joined d (u ++ x :: ts) rest) (hts : ts ≠ [])
    (hd : depthAfter d (u ++ [x]) = 0) : Seam x (ts ++ rest) := by
  induction u generalizing d with
  | nil => exact h.1 hts hd
  | cons y u ih => exact ih h.2 hd

/-- Inside brackets there is nothing to say. -/
theorem joined_inside (h : Nest true P d (lexemesOf ts) e) : Joined (d + 1) ts rest := by
  induction ts generalizing d with
  | nil => trivial
  | cons x ts ih =>
    obtain ⟨hs, hclose, -⟩ := h.cons_inv
    have hdepth : Lexeme.depthAfter true (.token x) (d + 1) =
        Lexeme.depthAfter true (.token x) d + 1 := by
      unfold Lexeme.depthAfter
      cases hx : (Lexeme.token x).bracket true with
      | opens => rfl
      | closes => have := hclose hx; simp only []; omega
      | none => rfl
    refine ⟨fun _ hd => ?_, ?_⟩
    · rw [hdepth] at hd
      cases hd
    · rw [hdepth]
      exact ih hs

theorem joined_single (x : Token) : Joined d [x] rest := ⟨fun h => absurd rfl h, trivial⟩

/-- A phrase inside brackets, and what comes after it there. -/
theorem Joined.inside_append (h : ∀ d, Nest true P d (lexemesOf xs) d) (hs : Joined 1 ys rest) :
    Joined 1 (xs ++ ys) rest := by
  have hdepth : depthAfter 1 xs = 1 := depthAfter_of_nest (h 1)
  refine .append (joined_inside (h 0)) (by rwa [hdepth]) fun hd => ?_
  rw [hdepth] at hd
  cases hd

/-- A phrase outside brackets, and what comes after it there. -/
theorem Joined.outside_append (hnest : Nest true P 0 (lexemesOf xs) 0)
    (h : Joined 0 xs (ys ++ rest)) (hs : Joined 0 ys rest)
    (hseam : ys ≠ [] → opensLine (ys ++ rest) = false) : Joined 0 (xs ++ ys) rest :=
  .append h (by rwa [depthAfter_of_nest hnest]) fun _ => hseam

/-- A token that needs more, in front of others. -/
theorem Joined.cons_needsMore (hx : needsMore x = true) (hplain : (Lexeme.token x).bracket true = .none)
    (h : Joined 0 ts rest) : Joined 0 (x :: ts) rest := by
  refine ⟨fun _ _ => .inl hx, ?_⟩
  rw [Lexeme.depthAfter, hplain]
  exact h

/-- A token without brackets in front of no key. -/
theorem Joined.cons_plain (hplain : (Lexeme.token x).bracket true = .none) (h : Joined 0 ts rest)
    (hts : ts ≠ [] → opensLine (ts ++ rest) = false) : Joined 0 (x :: ts) rest := by
  refine ⟨fun hne _ => .inr (hts hne), ?_⟩
  rw [Lexeme.depthAfter, hplain]
  exact h

/-- An opening bracket. -/
theorem Joined.cons_opens {m : Mark} (hopens : m.bracket true = .opens) (h : Joined 1 ts rest) :
    Joined 0 (.mark m :: ts) rest := by
  have hdepth : Lexeme.depthAfter true (.token (.mark m)) 0 = 1 := by
    rw [Lexeme.depthAfter, Lexeme.bracket, hopens]
  refine ⟨fun _ hd => ?_, by rwa [hdepth]⟩
  rw [hdepth] at hd
  cases hd

/-- A token without brackets, inside brackets. -/
theorem Joined.cons_inside (hplain : (Lexeme.token x).bracket true = .none) (h : Joined 1 ts rest) :
    Joined 1 (x :: ts) rest := by
  have hdepth : Lexeme.depthAfter true (.token x) 1 = 1 := by rw [Lexeme.depthAfter, hplain]
  refine ⟨fun _ hd => ?_, by rwa [hdepth]⟩
  rw [hdepth] at hd
  cases hd

/-- A closing bracket in front of no key. -/
theorem Joined.cons_closes {m : Mark} (hcloses : m.bracket true = .closes) (h : Joined 0 ts rest)
    (hts : ts ≠ [] → opensLine (ts ++ rest) = false) : Joined 1 (.mark m :: ts) rest := by
  have hdepth : Lexeme.depthAfter true (.token (.mark m)) 1 = 0 := by
    rw [Lexeme.depthAfter, Lexeme.bracket, hcloses]
  exact ⟨fun hne _ => .inr (hts hne), by rwa [hdepth]⟩

/-- A name with parts after dots. -/
theorem joined_name (name : String) (parts : List String) (h : Joined 0 ts rest)
    (hts : ts ≠ [] → opensLine (ts ++ rest) = false) :
    Joined 0 (.word name :: (dottedTokens parts ++ ts)) rest := by
  induction parts generalizing name with
  | nil => exact .cons_plain rfl h hts
  | cons part parts ih =>
    exact .cons_plain rfl (.cons_needsMore rfl rfl (ih part)) fun _ => rfl

/-- A key. -/
theorem joined_key {key : List Token} {name : String} (hkey : propertyName? key = some (name, []))
    (h : Joined 0 ts rest) (hts : ts ≠ [] → opensLine (ts ++ rest) = false) :
    Joined 0 (key ++ ts) rest := by
  unfold propertyName? at hkey
  split at hkey <;> cases hkey
  · exact .cons_plain rfl h hts
  · exact .cons_plain rfl h hts
  · exact .cons_plain rfl h hts
  · exact .cons_opens rfl (.cons_inside rfl (.cons_closes rfl h hts))
  · exact .cons_opens rfl (.cons_inside rfl (.cons_closes rfl h hts))

/-- A mark that may be there, in front of no key. -/
theorem joined_tokenIf {m : Mark} (hplain : m.bracket true = .none) (present : Bool)
    (h : Joined 0 ts rest) (hts : ts ≠ [] → opensLine (ts ++ rest) = false) :
    Joined 0 (tokenIf present (.mark m) ++ ts) rest := by
  cases present with
  | true => exact .cons_plain hplain h hts
  | false => exact h

end

/-! ### The phrases of the grammar -/

/-- A phrase that ends as a type does can end in front of the token. -/
def EndsMember (next : Option Token) : Prop := ∀ t ∈ next, followsKey t = false

theorem EndsMember.headOr {ts : List Token} {next : Option Token} (h : EndsMember next)
    (hts : ∀ t ∈ ts.head?, followsKey t = false) : EndsMember (headOr ts next) := by
  cases ts with
  | nil => exact h
  | cons t ts => exact hts

/-- The brackets after a type are no key. -/
theorem Derives.opensLine_brackets {p t : TypeNode} {ts rest : List Token}
    (h : Derives (.brackets p) ts t rest.head?) (hends : EndsMember rest.head?) (hne : ts ≠ []) :
    opensLine (ts ++ rest) = false := by
  cases h with
  | bracketsEnd => exact absurd rfl hne
  | arrayOf => rfl
  | @indexedBy p xs i ys t _ hi hs =>
    have hnest := hi.nest 0
    obtain ⟨x, xs, rfl, -⟩ := hi.type_cons
    have hys : ∀ t ∈ (ys ++ rest).head?, followsKey t = false := by
      cases hs with
      | bracketsEnd => exact hends
      | arrayOf => rintro _ ⟨⟩; rfl
      | indexedBy => rintro _ ⟨⟩; rfl
    cases xs with
    | nil =>
      cases hrest : ys ++ rest with
      | nil => cases x <;> simp [opensLine, hrest]
      | cons u us =>
        have hu := hys u (by rw [hrest]; rfl)
        cases x <;> simp [opensLine, hrest, hu]
    | cons y xs =>
      -- a bracket after a literal would close one that is not open
      have hy : ∀ w, x = .string w ∨ x = .number w → y ≠ .mark .closeBracket := by
        rintro w hx rfl
        have hplain : (Lexeme.token x).bracket true = .none := by rcases hx with rfl | rfl <;> rfl
        obtain ⟨hs, -⟩ := hnest.cons_inv
        rw [Lexeme.depthAfter, hplain] at hs
        exact (hs.cons_inv.2.1 rfl) rfl
      cases x with
      | string w =>
        have := hy w (.inl rfl)
        simp only [List.cons_append, opensLine]
        split <;> simp_all
      | number w =>
        have := hy w (.inr rfl)
        simp only [List.cons_append, opensLine]
        split <;> simp_all
      | _ => rfl

/-- The members of a union or an intersection, in front of others. -/
theorem joined_group {P : Lexeme → Prop} {m : Mark} {xs ys rest : List Token}
    (hm : m = .bar ∨ m = .ampersand) (hys : ys = [] ∨ ∃ zs, ys = .mark m :: zs)
    (hnest : Nest true P 0 (lexemesOf xs) 0) (hends : EndsMember rest.head?)
    (h : EndsMember (ys ++ rest).head? → Joined 0 xs (ys ++ rest)) (hs : Joined 0 ys rest) :
    Joined 0 (xs ++ ys) rest := by
  rcases hys with rfl | ⟨zs, rfl⟩
  · exact .outside_append hnest (h hends) hs (absurd rfl)
  · refine .outside_append hnest (h ?_) hs fun _ => ?_
    · rintro _ ⟨⟩
      rcases hm with rfl | rfl <;> rfl
    · rcases hm with rfl | rfl <;> rfl

theorem Derives.unionTail_cases {ys : List Token} {ts : List TypeNode} {next : Option Token}
    (h : Derives .unionTail ys ts next) : ys = [] ∨ ∃ zs, ys = .mark .bar :: zs := by
  cases h with
  | unionEnd => exact .inl rfl
  | unionMore => exact .inr ⟨_, rfl⟩

theorem Derives.intersectionTail_cases {ys : List Token} {ts : List TypeNode} {next : Option Token}
    (h : Derives .intersectionTail ys ts next) : ys = [] ∨ ∃ zs, ys = .mark .ampersand :: zs := by
  cases h with
  | intersectionEnd => exact .inl rfl
  | intersectionMore => exact .inr ⟨_, rfl⟩

/-- The categories whose phrases end as a type does, or as members do. -/
def Category.open : Category → Bool
  | .parameters | .elements | .members | .argumentList => false
  | _ => true

/-- The categories whose phrases stand in brackets alone. -/
def Category.inner : Category → Bool
  | .parameter | .element => true
  | _ => false

/-- **No member begins inside a phrase** outside brackets. -/
theorem Derives.joined {c : Category} {ts : List Token} {v : c.Tree} {next : Option Token}
    (h : Derives c ts v next) (hc : c.inner = false) {rest : List Token} (hrest : rest.head? = next)
    (hends : c.open = true → EndsMember next) : Joined c.closing ts rest := by
  have hshut {p : Prop} (h : false = true) : p := absurd h Bool.false_ne_true
  induction h generalizing rest with
  | ofFunction _ _ ih => exact .cons_opens rfl (ih rfl hrest hends)
  | ofUnion _ ih => exact ih rfl hrest hends
  | @arrow xs ps ys r next hp hr ihp ihr =>
    have hdepth : depthAfter 1 xs = 0 := depthAfter_of_nest (hp.nest 0)
    refine .append (ihp rfl rfl hshut) ?_ fun _ _ => rfl
    change Joined (depthAfter 1 xs) _ _
    rw [hdepth]
    exact .cons_needsMore rfl rfl (ihr rfl hrest hends)
  | noParameters => exact joined_single _
  | lastParameter h => exact .inside_append h.nest (joined_single _)
  | moreParameters h _ _ ih =>
    exact .inside_append h.nest (.cons_inside rfl (ih rfl hrest hshut))
  | parameter => cases hc
  | @unionOf xs t ys ts next front h hs ih ihs =>
    subst hrest
    have hmembers := joined_group (.inl rfl) hs.unionTail_cases (h.nest 0) (hends rfl)
      (fun hends => ih rfl (head?_append_eq_headOr _ _) fun _ => by
        rwa [← head?_append_eq_headOr]) (ihs rfl rfl hends)
    cases front with
    | true => exact .cons_needsMore rfl rfl hmembers
    | false => exact hmembers
  | unionEnd => trivial
  | @unionMore xs t ys ts next h hs ih ihs =>
    subst hrest
    exact .cons_needsMore rfl rfl (joined_group (.inl rfl) hs.unionTail_cases (h.nest 0)
      (hends rfl) (fun hends => ih rfl (head?_append_eq_headOr _ _) fun _ => by
        rwa [← head?_append_eq_headOr]) (ihs rfl rfl hends))
  | @intersectionOf xs t ys ts next front h hs ih ihs =>
    subst hrest
    have hmembers := joined_group (.inr rfl) hs.intersectionTail_cases (h.nest 0) (hends rfl)
      (fun hends => ih rfl (head?_append_eq_headOr _ _) fun _ => by
        rwa [← head?_append_eq_headOr]) (ihs rfl rfl hends)
    cases front with
    | true => exact .cons_needsMore rfl rfl hmembers
    | false => exact hmembers
  | intersectionEnd => trivial
  | @intersectionMore xs t ys ts next h hs ih ihs =>
    subst hrest
    exact .cons_needsMore rfl rfl (joined_group (.inr rfl) hs.intersectionTail_cases (h.nest 0)
      (hends rfl) (fun hends => ih rfl (head?_append_eq_headOr _ _) fun _ => by
        rwa [← head?_append_eq_headOr]) (ihs rfl rfl hends))
  | keyofOf _ ih => exact .cons_needsMore rfl rfl (ih rfl hrest hends)
  | readonlyOf _ ih => exact .cons_needsMore rfl rfl (ih rfl hrest hends)
  | uniqueOf name => exact .cons_needsMore rfl rfl (joined_single _)
  | @bracketed xs p ys t next h hs ih ihs =>
    subst hrest
    refine .outside_append (h.nest 0) (ih rfl ?_ fun _ => ?_) (ihs rfl rfl hends) fun hne => ?_
    · rw [head?_append_eq_headOr]
    · refine (hends rfl).headOr ?_
      cases hs <;> (rintro _ ⟨⟩ <;> rfl)
    · exact hs.opensLine_brackets (hends rfl) hne
  | bracketsEnd => trivial
  | arrayOf h ih =>
    subst hrest
    exact .cons_opens rfl (.cons_closes rfl (ih rfl rfl hends) fun hne =>
      h.opensLine_brackets (hends rfl) hne)
  | indexedBy hi h _ ih =>
    subst hrest
    exact .cons_opens rfl (.inside_append hi.nest (.cons_closes rfl (ih rfl rfl hends) fun hne =>
      h.opensLine_brackets (hends rfl) hne))
  | parens h => exact .cons_opens rfl (.inside_append h.nest (joined_single _))
  | object _ ih => exact .cons_opens rfl (ih rfl hrest hshut)
  | tuple _ ih => exact .cons_opens rfl (ih rfl hrest hshut)
  | string | number | negative | template => exact joined_single _
  | query name parts =>
    have := @joined_name [] rest name parts trivial (absurd rfl)
    rw [List.append_nil] at this
    exact .cons_needsMore rfl rfl this
  | @imported ts as next literal name parts h hs ih =>
    have hts : ts ≠ [] → opensLine (ts ++ rest) = false := by
      cases hs with
      | noArguments => exact fun hne => absurd rfl hne
      | someArguments => exact fun _ => rfl
    refine .cons_plain rfl (.cons_opens rfl (.cons_inside rfl (.cons_closes rfl ?_ fun _ => rfl)))
      fun _ => rfl
    exact .cons_needsMore rfl rfl (joined_name name parts (ih rfl hrest hends) hts)
  | @reference ts as next name parts hn h hs ih =>
    have hts : ts ≠ [] → opensLine (ts ++ rest) = false := by
      cases hs with
      | noArguments => exact fun hne => absurd rfl hne
      | someArguments => exact fun _ => rfl
    exact joined_name name parts (ih rfl hrest hends) hts
  | noArguments => trivial
  | someArguments _ ih => exact .cons_opens rfl (ih rfl hrest hshut)
  | lastArgument h => exact .inside_append h.nest (joined_single _)
  | moreArguments h _ _ ih =>
    exact .inside_append h.nest (.cons_inside rfl (ih rfl hrest hshut))
  | noElements => exact joined_single _
  | lastElement h => exact .inside_append h.nest (joined_single _)
  | moreElements h _ _ ih =>
    exact .inside_append h.nest (.cons_inside rfl (ih rfl hrest hshut))
  | restElement => cases hc
  | namedElement => cases hc
  | plainElement => cases hc
  | noMembers => exact joined_single _
  | moreMembers sep hsep h _ _ ih =>
    refine .inside_append h.nest ?_
    simp only [separators, List.mem_cons, List.not_mem_nil, or_false] at hsep
    rcases hsep with rfl | rfl | rfl
    · exact ih rfl hrest hshut
    · exact .cons_inside rfl (ih rfl hrest hshut)
    · exact .cons_inside rfl (ih rfl hrest hshut)
  | index key readonly hk _ _ ih =>
    have hindex := Joined.cons_opens (m := .openBracket) rfl (.cons_inside (x := .word key) rfl
      (.cons_inside (x := .mark .colon) rfl (.inside_append hk.nest
        (.cons_closes (m := .closeBracket) rfl (.cons_needsMore (x := .mark .colon) rfl rfl
          (ih rfl hrest hends)) fun _ => rfl))))
    cases readonly with
    | true => exact .cons_needsMore rfl rfl hindex
    | false => exact hindex
  | @method key xs ps ys r next name optional hkey hplain hp hr ihp ihr =>
    have hys : ys ≠ [] → opensLine (ys ++ rest) = false := by
      cases hr with
      | noAscription => exact fun hne => absurd rfl hne
      | someAscription => exact fun _ => rfl
    have hdepth : depthAfter 1 xs = 0 := depthAfter_of_nest (hp.nest 0)
    have hparameters : Joined 1 (xs ++ ys) rest := by
      refine .append (ihp rfl ?_ hshut) ?_ fun _ => hys
      · rw [head?_append_eq_headOr, hrest]
      · rw [hdepth]
        exact ihr rfl hrest hends
    refine joined_key hkey (joined_tokenIf rfl optional (.cons_opens rfl hparameters) fun _ => rfl) ?_
    cases optional <;> exact fun _ => rfl
  | @property key ts t next name optional readonly hkey hplain hopt hparen h ih =>
    have hts : ts ≠ [] → opensLine (ts ++ rest) = false := by
      cases h with
      | noAscription => exact fun hne => absurd rfl hne
      | someAscription => exact fun _ => rfl
    have hkeyed : Joined 0 (key ++ (tokenIf optional (.mark .question) ++ ts)) rest := by
      refine joined_key hkey (joined_tokenIf rfl optional (ih rfl hrest hends) hts) ?_
      cases optional with
      | true => exact fun _ => rfl
      | false => exact hts
    cases readonly with
    | true => exact .cons_needsMore (by decide) rfl hkeyed
    | false => exact hkeyed
  | noAscription => trivial
  | someAscription _ ih => exact .cons_needsMore rfl rfl (ih rfl hrest hends)

theorem opensLine_append {ts : List Token} (rest : List Token) (h : opensLine ts = true) :
    opensLine (ts ++ rest) = true := by
  unfold opensLine at h
  split at h <;> first | rfl | exact h | cases h

theorem followsKey_of_opensMember {t : Token} (h : opensMember t = true) : followsKey t = false := by
  unfold opensMember at h
  split at h <;> first | rfl | cases h

theorem Run.endsMember {ts : List Token} {ms : List Member} (h : Run ts ms) :
    EndsMember (headOr ts (some (.mark .closeBrace))) := by
  cases h with
  | nil => rintro _ ⟨⟩; rfl
  | cons h _ =>
    obtain ⟨x, xs, rfl, hx⟩ := h.member_cons
    rintro _ ⟨⟩
    exact followsKey_of_opensMember hx

/-- **Between two members** stands every line break, outside brackets, that comes after something
that needs no more and in front of a key. -/
theorem Run.split {u v : List Token} {x : Token} {ms : List Member} (h : Run (u ++ x :: v) ms)
    (hdepth : depthAfter 0 (u ++ [x]) = 0) (hx : needsMore x = false) (hv : opensLine v = true) :
    ∃ ms₁ ms₂, ms = ms₁ ++ ms₂ ∧ Run (u ++ [x]) ms₁ ∧ Run v ms₂ := by
  generalize hts : u ++ x :: v = ts at h
  induction h generalizing u with
  | nil => simp at hts
  | @cons xs m ys ms hm hs ih =>
    have hbrace : ((ys ++ [Token.mark .closeBrace]).head? : Option Token) =
        headOr ys (some (.mark .closeBrace)) := by cases ys <;> rfl
    have hlater (w : List Token) (hys : ys = w ++ x :: v) (hu : u = xs ++ w) :
        ∃ ms₁ ms₂, m :: ms = ms₁ ++ ms₂ ∧ Run (u ++ [x]) ms₁ ∧ Run v ms₂ := by
      subst hys hu
      have hzero : depthAfter 0 xs = 0 := depthAfter_of_nest (hm.nest 0)
      rw [List.append_assoc, depthAfter_append, hzero] at hdepth
      obtain ⟨ms₁, ms₂, rfl, h₁, h₂⟩ := ih hdepth rfl
      refine ⟨m :: ms₁, ms₂, rfl, ?_, h₂⟩
      rw [List.append_assoc]
      refine .cons ?_ h₁
      cases w <;> exact hm
    rcases List.append_eq_append_iff.1 hts with ⟨w, rfl, hw⟩ | ⟨w, hu, hys⟩
    · cases w with
      | nil => exact hlater [] hw.symm (by simp)
      | cons y w =>
        obtain ⟨rfl, rfl⟩ := List.cons.inj hw
        cases w with
        | nil => exact ⟨[m], ms, rfl, by simpa using Run.cons hm.before_brace .nil, hs⟩
        | cons y w =>
          -- the line break would stand inside the member
          have hjoined := hm.joined rfl hbrace fun _ => hs.endsMember
          rcases hjoined.seam (by simp) hdepth with hmore | hkey
          · rw [hx] at hmore
            cases hmore
          · have htrue := opensLine_append [.mark .closeBrace] hv
            rw [show (y :: w).append ys = y :: w ++ ys from rfl, List.append_assoc, hkey] at htrue
            cases htrue
    · exact hlater w hys hu

end FluentBuilders.Grammar
