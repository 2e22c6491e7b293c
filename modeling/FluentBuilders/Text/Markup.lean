/-!
# Text/Markup — console markup, and texts made safe for it

On the console `[bold]…[/bold]` is a style.  A text that is only to be shown has its brackets
escaped, so that nothing in it is taken for a **tag**: a `[`, one of `a`–`z`, `#`, `/`, `@`, and
then anything but `[` up to the first `]`.
-/

namespace FluentBuilders.Text

/-- A tag's body up to and with its `]`, and what follows; nothing when a `[` or the end comes
first. -/
def tagEnd? : List Char → Option (List Char × List Char)
  | [] => none
  | c :: cs =>
    if c = ']' then some ([c], cs)
    else if c = '[' then none
    else (tagEnd? cs).map fun (body, rest) => (c :: body, rest)

/-- **A tag** at the start of the text, and what follows it. -/
def readTag? : List Char → Option (List Char × List Char)
  | '[' :: c :: cs =>
    if ('a' ≤ c && c ≤ 'z') || c == '#' || c == '/' || c == '@' then
      (tagEnd? cs).map fun (body, rest) => ('[' :: c :: body, rest)
    else none
  | _ => none

theorem tagEnd?_length {cs body rest : List Char} (h : tagEnd? cs = some (body, rest)) :
    rest.length < cs.length := by
  induction cs generalizing body rest with
  | nil => simp [tagEnd?] at h
  | cons c cs ih =>
    simp only [tagEnd?] at h
    split at h
    · cases h; simp
    · split at h
      · cases h
      · obtain ⟨⟨b, r⟩, hb, he⟩ := Option.map_eq_some_iff.1 h
        cases he
        exact Nat.lt_succ_of_lt (ih hb)

theorem readTag?_length {cs tag rest : List Char} (h : readTag? cs = some (tag, rest)) :
    rest.length < cs.length := by
  unfold readTag? at h
  split at h
  · split at h
    · obtain ⟨⟨b, r⟩, hb, he⟩ := Option.map_eq_some_iff.1 h
      cases he
      have := tagEnd?_length hb
      simp only [List.length_cons]; omega
    · cases h
  · cases h

/-- Escapes every tag; `slashes` counts the backslashes read directly before the text.  They are
doubled before a tag, which gets one more of its own. -/
def escapeTags (slashes : Nat) (cs : List Char) : List Char :=
  match _ : readTag? cs with
  | some (tag, rest) => List.replicate (2 * slashes + 1) '\\' ++ tag ++ escapeTags 0 rest
  | none =>
    match cs with
    | [] => List.replicate slashes '\\'
    | c :: cs =>
      if c = '\\' then escapeTags (slashes + 1) cs
      else List.replicate slashes '\\' ++ c :: escapeTags 0 cs
termination_by cs.length
decreasing_by
  · exact readTag?_length ‹_›
  · simp
  · simp

/-- **A text made safe for the console.**  A single backslash at the end is doubled, so that it does
not escape the tag written after the text. -/
def escapeMarkup (text : String) : String :=
  let escaped := escapeTags 0 text.toList
  String.ofList <|
    match escaped.reverse with
    | '\\' :: '\\' :: _ => escaped
    | '\\' :: _ => escaped ++ ['\\']
    | _ => escaped

end FluentBuilders.Text
