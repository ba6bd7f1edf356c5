/-!
Texts written line by line.

Each text that is written gets a line feed at its end.  A reader of the output
sees its lines: a line ends at a line feed, and a carriage return right in front
of the line feed belongs to the end of the line.  A text that holds line feeds
itself is therefore read as several lines.

* `Lines.write`: the output of some texts;
* `Lines.read`: the lines of an output;
* `Lines.read_write`: texts without line ends of their own are read back.
-/

namespace FiniteDomain

namespace Lines

/-- The output of some texts, written one after another. -/
def write : List (List Char) → List Char
  | [] => []
  | text :: texts => text ++ '\n' :: write texts

/-- The lines of an output; the last one may go without an end. -/
def read : List Char → List (List Char)
  | [] => []
  | '\n' :: cs => [] :: read cs
  | '\r' :: '\n' :: cs => [] :: read cs
  | c :: cs =>
    match read cs with
    | [] => [[c]]
    | line :: lines => (c :: line) :: lines

/-- The lines that a reader sees of some texts. -/
def ofTexts (texts : List String) : List String :=
  (read (write (texts.map String.toList))).map String.ofList

/-- A text without line feed is read as one line, unless it ends with a carriage
return. -/
theorem read_line {text : List Char} (hn : '\n' ∉ text) (hr : text.getLast? ≠ some '\r')
    (rest : List Char) : read (text ++ '\n' :: rest) = text :: read rest := by
  induction text with
  | nil => rw [List.nil_append, read]
  | cons c text ih =>
    have hc : c ≠ '\n' := fun h => hn (h ▸ List.mem_cons_self)
    have htext : '\n' ∉ text := fun h => hn (List.mem_cons_of_mem c h)
    cases text with
    | nil =>
      have hcr : c ≠ '\r' := fun h => hr (by rw [h]; rfl)
      rw [List.singleton_append, read, read]
      · exact hc
      · intro cs h
        exact absurd h hcr
    | cons d text =>
      have hd : d ≠ '\n' := fun h => htext (h ▸ List.mem_cons_self)
      rw [List.cons_append, read, ih htext (by simpa using hr)]
      · exact hc
      · intro cs _ h
        cases h
        exact hd rfl

/-- Texts without line ends of their own are read back. -/
theorem read_write {texts : List (List Char)}
    (h : ∀ text ∈ texts, '\n' ∉ text ∧ text.getLast? ≠ some '\r') :
    read (write texts) = texts := by
  induction texts with
  | nil => rfl
  | cons text texts ih =>
    obtain ⟨hn, hr⟩ := h text List.mem_cons_self
    rw [write, read_line hn hr, ih fun t ht => h t (List.mem_cons_of_mem text ht)]

end Lines

end FiniteDomain
